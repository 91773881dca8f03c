import Mathlib.Logic.Equiv.List
import Virtkit.Build.Canonical

/-!
# The keys of a build's steps

A stage's key starts from its base, or goes on from another stage's, and is chained with each instruction: the
new key is a digest of the last one, the instruction's text and the key of the content it reads, a line each.
The key of a base is a digest of lines as well, the first of which is a version, and so no key.
-/

namespace Virtkit.Build

open Virtkit.Common List

/-- A digest of texts, in digits: no two texts share one. -/
structure Digest where
  hex : Text → Text
  injective : Function.Injective hex
  noNewline : ∀ t, '\n' ∉ hex t

def cacheKeyVersion : Text := "5".toList

/-- The name of the keys of snapshots. -/
def snapLabel : Text := "snap".toList

def snapKey (hex : Text) : Text := snapLabel ++ "-".toList ++ hex

variable (dg : Digest)

/-- The key of a text that no other key comes before. -/
def hashKey (s : Text) : Text := snapKey (dg.hex (cacheKeyVersion ++ '\n' :: (snapLabel ++ '\n' :: s)))

def chainKey (prev : Text) (instr : Instruction) (content : Option Text) : Text :=
  snapKey (dg.hex (prev ++ '\n' :: (canonical instr ++ content.elim [] ('\n' :: ·))))

/-- What a stage is built on, if not on another stage: an image, of which the digest may be known, or nothing. -/
inductive Base where
  | image (name : Text) (digest : Option Text)
  | scratch

def Base.text : Base → Text
  | .image name (some d) => "FROM image ".toList ++ name ++ "@".toList ++ d
  | .image name none => "FROM image ".toList ++ name
  | .scratch => "FROM scratch".toList

/-- How a stage's key comes about: from its base, salted for the image's own kernel where the stage wants it, and
then instruction by instruction. A stage on another one goes on from that one's chain. -/
inductive Chain where
  | base (b : Base)
  | kernel (parent : Chain)
  | step (parent : Chain) (instr : Instruction) (content : Option Text)

namespace Chain

def key : Chain → Text
  | .base b => hashKey dg b.text
  | .kernel parent => hashKey dg (key parent ++ "\nKERNEL=image".toList)
  | .step parent instr content => chainKey dg (key parent) instr content

/-- The instructions a chain ran, up to what their texts leave out, each with the key of its content. -/
def ran : Chain → List (Instruction × Option Text)
  | .base _ => []
  | .kernel parent => parent.ran
  | .step parent instr content => parent.ran ++ [(instr.keyed, content)]

/-- Chains made in the same way from one base, of alike instructions with the same keys of contents. -/
def Alike : Chain → Chain → Prop
  | .base b, .base b' => b.text = b'.text
  | .kernel parent, .kernel parent' => parent.Alike parent'
  | .step parent instr content, .step parent' instr' content' =>
    parent.Alike parent' ∧ instr.Alike instr' ∧ content = content'
  | _, _ => False

/-- A condition holds of each instruction of a chain. -/
def All (P : Instruction → Prop) : Chain → Prop
  | .base _ => True
  | .kernel parent => parent.All P
  | .step parent instr _ => parent.All P ∧ P instr

end Chain

/-- The instructions a chain takes, without unit separators in their fields. -/
structure Instruction.Taken (i : Instruction) : Prop where
  chained : i.chained
  plain : i.Plain

/-- The instructions whose texts tell them apart: those without other separators in their fields either. -/
structure Instruction.Told (i : Instruction) : Prop extends i.Taken where
  separable : i.Separable

variable {dg}

theorem snapKey_hex_inj {s t : Text} (h : snapKey (dg.hex s) = snapKey (dg.hex t)) : s = t :=
  dg.injective (append_cancel_left h)

theorem hashKey_inj {s t : Text} (h : hashKey dg s = hashKey dg t) : s = t := by
  have hinput := snapKey_hex_inj h
  exact (List.cons.inj (append_cancel_left (List.cons.inj (append_cancel_left hinput)).2)).2

theorem Chain.key_eq (c : Chain) : ∃ t, c.key dg = snapKey (dg.hex t) := by
  cases c <;> exact ⟨_, rfl⟩

theorem Chain.newline_notMem_key (c : Chain) : '\n' ∉ c.key dg := by
  obtain ⟨t, ht⟩ := c.key_eq
  rw [ht]
  exact not_mem_append (by decide) (dg.noNewline t)

/-- A key with none before it is no step's key. -/
theorem hashKey_ne_chainKey (c : Chain) (s : Text) (instr : Instruction) (content : Option Text) :
    hashKey dg s ≠ chainKey dg (c.key dg) instr content := by
  intro h
  obtain ⟨t, ht⟩ := c.key_eq
  have hinput := snapKey_hex_inj h
  rw [ht] at hinput
  exact absurd (List.cons.inj hinput).1 (by decide)

theorem Base.text_ne_key (b : Base) (c : Chain) (t : Text) : b.text ≠ c.key dg ++ t := by
  intro h
  obtain ⟨u, hu⟩ := c.key_eq
  rw [hu] at h
  match b with
  | .image name (some d) => exact absurd (List.cons.inj h).1 (by decide)
  | .image name none => exact absurd (List.cons.inj h).1 (by decide)
  | .scratch => exact absurd (List.cons.inj h).1 (by decide)

/-- A step's key tells the key before, the instruction and the content. -/
theorem chainKey_inj {prev prev' : Text} {i j : Instruction} {content content' : Option Text}
    (hprev : '\n' ∉ prev) (hprev' : '\n' ∉ prev') (hi : '\n' ∉ canonical i) (hj : '\n' ∉ canonical j)
    (h : chainKey dg prev i content = chainKey dg prev' j content') :
    prev = prev' ∧ canonical i = canonical j ∧ content = content' := by
  obtain ⟨hp, hrest⟩ := append_cons_inj_left hprev hprev' (snapKey_hex_inj h)
  refine ⟨hp, ?_⟩
  -- the instruction's text ends the input or has the only newline that ends it
  cases content with
  | none =>
    cases content' with
    | none => exact ⟨append_cancel_right hrest, rfl⟩
    | some c' =>
      refine absurd ?_ (not_mem_append hi not_mem_nil)
      exact hrest ▸ mem_append_right _ mem_cons_self
  | some c =>
    cases content' with
    | none =>
      refine absurd ?_ (not_mem_append hj not_mem_nil)
      exact hrest ▸ mem_append_right _ mem_cons_self
    | some c' =>
      obtain ⟨htext, hcontent⟩ := append_cons_inj_left hi hj hrest
      exact ⟨htext, by rw [hcontent]⟩

theorem Chain.All.mono {P Q : Instruction → Prop} (hPQ : ∀ i, P i → Q i) {c : Chain} (h : c.All P) : c.All Q := by
  induction c with
  | base b => trivial
  | kernel parent ih => exact ih h
  | step parent instr content ih => exact ⟨ih h.1, hPQ _ h.2⟩

/-- Two chains have one key if and only if they are alike. -/
theorem Chain.key_eq_iff {c d : Chain} (hc : c.All Instruction.Taken) (hd : d.All Instruction.Taken) :
    c.key dg = d.key dg ↔ c.Alike d := by
  induction c generalizing d with
  | base b =>
    cases d with
    | base b' => exact ⟨hashKey_inj, congrArg (hashKey dg)⟩
    | kernel parent => exact iff_of_false (fun h => b.text_ne_key parent _ (hashKey_inj h)) id
    | step parent instr content => exact iff_of_false (hashKey_ne_chainKey parent _ _ _) id
  | kernel parent ih =>
    cases d with
    | base b => exact iff_of_false (fun h => b.text_ne_key parent _ (hashKey_inj h).symm) id
    | kernel parent' =>
      refine (Iff.intro (fun h => append_cancel_right (hashKey_inj h)) fun h => ?_).trans (@ih parent' hc hd)
      rw [h]
    | step parent' instr content => exact iff_of_false (hashKey_ne_chainKey parent' _ _ _) id
  | step parent instr content ih =>
    cases d with
    | base b | kernel parent' => exact iff_of_false (fun h => hashKey_ne_chainKey parent _ _ _ h.symm) id
    | step parent' instr' content' =>
      constructor
      · intro h
        obtain ⟨hkey, htext, hcontent⟩ := chainKey_inj parent.newline_notMem_key parent'.newline_notMem_key
          (newline_notMem_canonical hc.2.plain) (newline_notMem_canonical hd.2.plain) h
        exact ⟨(ih hc.1 hd.1).mp hkey, (canonical_eq_iff hc.2.chained hc.2.plain hd.2.plain).mp htext, hcontent⟩
      · rintro ⟨hparent, hinstr, hcontent⟩
        simp only [Chain.key, chainKey, (ih hc.1 hd.1).mpr hparent, hcontent,
          (canonical_eq_iff hc.2.chained hc.2.plain hd.2.plain).mpr hinstr]

theorem Chain.Alike.ran_eq {c d : Chain} (h : c.Alike d) (hc : c.All Instruction.Told) (hd : d.All Instruction.Told) :
    c.ran = d.ran := by
  induction c generalizing d with
  | base b =>
    cases d with
    | base b' => rfl
    | _ => exact h.elim
  | kernel parent ih =>
    cases d with
    | kernel parent' => exact @ih parent' h hc hd
    | _ => exact h.elim
  | step parent instr content ih =>
    cases d with
    | step parent' instr' content' =>
      obtain ⟨hparent, hinstr, hcontent⟩ := h
      rw [Chain.ran, Chain.ran, ih hparent hc.1 hd.1, hcontent,
        hinstr.keyed_eq hc.2.plain hd.2.plain hc.2.separable hd.2.separable]
    | _ => exact h.elim

def countingDigest : Digest where
  hex t := List.replicate (Encodable.encode (t.map Char.toNat)) '0'
  injective := by
    intro s t h
    have hcode := congrArg List.length h
    rw [length_replicate, length_replicate] at hcode
    exact map_injective_iff.mpr (fun a b hab => Char.toNat_inj.mp hab) (Encodable.encode_injective hcode)
  noNewline t h := absurd (eq_of_mem_replicate h) (by decide)

/-- A run with a directory of an image at hand, of a network given or not, and with flags its key leaves out. -/
def installRun (network : Option Text) (extraFlags : List (Text × Text)) : Instruction :=
  .run {
    cmd := .exec ["make".toList, "install".toList]
    mounts := [{ typ := "bind".toList, fromRef := some "golang:1.22".toList, source := none,
                 target := some "/c".toList, readonly := false, rw := true, uid := none, gid := none, mode := none,
                 size := none }]
    network := network
    security := none
    extraFlags := extraFlags }

def copyFrom (source dest : Text) : Instruction :=
  .copy {
    sources := [source]
    dest := dest
    fromRef := some "base".toList
    chown := none
    chmod := none
    link := false }

end Virtkit.Build
