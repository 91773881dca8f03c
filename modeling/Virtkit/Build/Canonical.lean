import Mathlib.Data.Char
import Virtkit.Common.Separated

/-!
# The text that stands for an instruction

An instruction's cache key is made of its canonical text: its fields, one after the other, with the unit
separator between them. Some fields are lists. The arguments of a command and the sources of a copy have the
unit separator between them as well, but an arrow stands between the sources and the destination; mounts have
a comma between them, and the fields of a mount a colon.

So the text tells the kind of an instruction, and its fields, up to what stands between two unit separators:
two copies with one text for sources and destination together are one to it. These parts are told apart when
the other separators are in no field they end: an arrow in the destination of a copy, or the label of the next
field in a field of a mount, moves the border between two fields.
-/

namespace Virtkit.Build

open Virtkit.Common List

abbrev Text := List Char

/-- The shell form of a command, or its exec form. -/
inductive Cmdline where
  | shell (s : Text)
  | exec (v : List Text)
  deriving DecidableEq

structure Mount where
  typ : Text
  fromRef : Option Text
  source : Option Text
  target : Option Text
  readonly : Bool
  rw : Bool
  uid : Option Text
  gid : Option Text
  mode : Option Text
  size : Option Text
  deriving DecidableEq

/-- A command a stage runs. -/
structure Run where
  cmd : Cmdline
  mounts : List Mount
  network : Option Text
  security : Option Text
  extraFlags : List (Text × Text)
  deriving DecidableEq

/-- Files a stage copies. -/
structure Copy where
  sources : List Text
  dest : Text
  fromRef : Option Text
  chown : Option Text
  chmod : Option Text
  link : Bool
  deriving DecidableEq

/-- The base of a stage. -/
structure From where
  image : Text
  asName : Option Text
  platform : Option Text
  deriving DecidableEq

inductive Instruction where
  | fromImage (f : From)
  | run (r : Run)
  | copy (c : Copy)
  | arg (name : Text) (default : Option Text)
  | env (kvs : List (Text × Text))
  | workdir (w : Text)
  | user (u : Text)
  | label (kvs : List (Text × Text))
  | entrypoint (c : Cmdline)
  | cmd (c : Cmdline)
  | other (name args : Text)
  deriving DecidableEq

/-- The unit separator. -/
def us : Char := '\u001f'

/-- An optional text, empty where it is absent. -/
def o (x : Option Text) : Text := x.getD []

def flag (b : Bool) : Text := if b then "true".toList else "false".toList

def Cmdline.text : Cmdline → Text
  | .shell s => [us].intercalate ["shell".toList, s]
  | .exec v => [us].intercalate ["exec".toList, [us].intercalate v]

def Mount.fields (m : Mount) : List Text :=
  [m.typ, "from=".toList ++ o m.fromRef, "src=".toList ++ o m.source, "tgt=".toList ++ o m.target,
    "ro=".toList ++ flag m.readonly, "rw=".toList ++ flag m.rw, "uid=".toList ++ o m.uid, "gid=".toList ++ o m.gid,
    "mode=".toList ++ o m.mode]

def Mount.text (m : Mount) : Text := [':'].intercalate m.fields

/-- The text of a key and its value. -/
def pair (p : Text × Text) : Text := p.1 ++ '=' :: p.2

/-- The text of keys and their values. -/
def kv (kvs : List (Text × Text)) (sep : Char) : Text := [sep].intercalate (kvs.map pair)

def canonical : Instruction → Text
  | .fromImage f => [us].intercalate ["FROM".toList, f.image, o f.asName, o f.platform]
  | .run r =>
    [us].intercalate ["RUN".toList, r.cmd.text, "net=".toList ++ o r.network, "sec=".toList ++ o r.security,
      "mounts=".toList ++ [','].intercalate (r.mounts.map Mount.text)]
  | .copy c =>
    [us].intercalate ["COPY".toList, "from=".toList ++ o c.fromRef, "chown=".toList ++ o c.chown,
      "chmod=".toList ++ o c.chmod, "link=".toList ++ flag c.link,
      [us].intercalate c.sources ++ "->".toList ++ c.dest]
  | .arg name default => [us].intercalate ["ARG".toList, name ++ "=".toList ++ o default]
  | .env kvs => [us].intercalate ["ENV".toList, kv kvs us]
  | .workdir w => [us].intercalate ["WORKDIR".toList, w]
  | .user u => [us].intercalate ["USER".toList, u]
  | .label kvs => [us].intercalate ["LABEL".toList, kv kvs us]
  | .entrypoint c => [us].intercalate ["ENTRYPOINT".toList, c.text]
  | .cmd c => [us].intercalate ["CMD".toList, c.text]
  | .other name args => [us].intercalate ["OTHER".toList, name, args]

/-- Whether a stage's chain takes an instruction: its base is in the root, and an argument is only bound. -/
def Instruction.chained : Instruction → Bool
  | .fromImage _ | .arg _ _ => false
  | _ => true

/-- A mount, up to absent fields, and without what its text leaves out. -/
def Mount.keyed (m : Mount) : Mount :=
  { m with
    fromRef := some (o m.fromRef), source := some (o m.source), target := some (o m.target), uid := some (o m.uid),
    gid := some (o m.gid), mode := some (o m.mode), size := none }

/-- An instruction, up to absent fields, and without what its text leaves out. -/
def Instruction.keyed : Instruction → Instruction
  | .fromImage f => .fromImage { f with asName := some (o f.asName), platform := some (o f.platform) }
  | .run r =>
    .run { r with
      mounts := r.mounts.map Mount.keyed, network := some (o r.network), security := some (o r.security),
      extraFlags := [] }
  | .copy c => .copy { c with fromRef := some (o c.fromRef), chown := some (o c.chown), chmod := some (o c.chmod) }
  | .arg name default => .arg name (some (o default))
  | i => i

def Cmdline.texts : Cmdline → List Text
  | .shell s => [s]
  | .exec v => v

def Mount.texts (m : Mount) : List Text :=
  [m.typ, o m.fromRef, o m.source, o m.target, o m.uid, o m.gid, o m.mode]

/-- The texts of an instruction, other than those its key leaves out. -/
def Instruction.texts : Instruction → List Text
  | .fromImage f => [f.image, o f.asName, o f.platform]
  | .run r => r.cmd.texts ++ [o r.network, o r.security] ++ r.mounts.flatMap Mount.texts
  | .copy c => c.sources ++ [c.dest, o c.fromRef, o c.chown, o c.chmod]
  | .arg name default => [name, o default]
  | .env kvs | .label kvs => kvs.flatMap fun p => [p.1, p.2]
  | .workdir t | .user t => [t]
  | .entrypoint c | .cmd c => c.texts
  | .other name args => [name, args]

/-- No text has the unit separator or a newline. -/
def Instruction.Plain (i : Instruction) : Prop := ∀ t ∈ i.texts, us ∉ t ∧ '\n' ∉ t

/-- The exec form has a word. -/
def Cmdline.Separable : Cmdline → Prop
  | .shell _ => True
  | .exec v => v ≠ []

/-- No field of a mount has the label of the next one, or a comma. -/
def Mount.Separable (m : Mount) : Prop :=
  (∀ t ∈ m.texts, ',' ∉ t) ∧ ¬ ":from=".toList <:+: m.typ ∧ ¬ ":src=".toList <:+: o m.fromRef ∧
    ¬ ":tgt=".toList <:+: o m.source ∧ ¬ ":ro=".toList <:+: o m.target ∧ ¬ ":gid=".toList <:+: o m.uid ∧
    ¬ ":mode=".toList <:+: o m.gid

/-- The other separators are in no field they end, and lists that are empty or have one empty text do not mix. -/
def Instruction.Separable : Instruction → Prop
  | .run r => r.cmd.Separable ∧ ∀ m ∈ r.mounts, m.Separable
  | .copy c => c.sources ≠ [] ∧ ¬ ['-', '>'] <:+: c.dest
  | .env kvs | .label kvs => ∀ p ∈ kvs, '=' ∉ p.1
  | .entrypoint c | .cmd c => c.Separable
  | _ => True

/-- The text of a run's mounts. -/
def Run.mountsText (r : Run) : Text := [','].intercalate (r.mounts.map Mount.text)

/-- The text of a copy's sources and its destination. -/
def Copy.paths (c : Copy) : Text := [us].intercalate c.sources ++ "->".toList ++ c.dest

/-- Two instructions of one kind with the same fields, but for those of which only a text together is the same. -/
def Instruction.Alike : Instruction → Instruction → Prop
  | .run r, .run r' =>
    r.cmd.text = r'.cmd.text ∧ o r.network = o r'.network ∧ o r.security = o r'.security ∧ r.mountsText = r'.mountsText
  | .copy c, .copy c' =>
    o c.fromRef = o c'.fromRef ∧ o c.chown = o c'.chown ∧ o c.chmod = o c'.chmod ∧ c.link = c'.link ∧ c.paths = c'.paths
  | .env kvs, .env kvs' | .label kvs, .label kvs' => kvs.map pair = kvs'.map pair
  | .workdir t, .workdir t' | .user t, .user t' => t = t'
  | .entrypoint c, .entrypoint c' | .cmd c, .cmd c' => c.text = c'.text
  | .other name args, .other name' args' => name = name' ∧ args = args'
  | _, _ => False

/-!
## Instructions read back from their texts

The canonical text of an instruction tells its kind by the word it begins with, and its fields one by one. A
field that may contain the separator is what is left when the others are taken off, from the front or from the
back. What stands in one field is told apart when its separators are in no part they end.
-/

theorem intercalate_us_cons (p q : Text) (l : List Text) :
    [us].intercalate (p :: q :: l) = p ++ us :: [us].intercalate (q :: l) := by
  rw [intercalate_cons_cons, append_assoc]
  rfl

theorem flag_injective : Function.Injective flag := by
  intro a b h
  cases a <;> cases b <;> first | rfl | exact absurd h (by decide)

/-- A command line is known by its text. -/
theorem Cmdline.text_inj {c d : Cmdline} (hc : ∀ t ∈ c.texts, us ∉ t) (hd : ∀ t ∈ d.texts, us ∉ t)
    (hcs : c.Separable) (hds : d.Separable) (h : c.text = d.text) : c = d := by
  cases c <;> cases d <;> simp only [Cmdline.text, intercalate_us_cons, intercalate_singleton] at h <;>
    obtain ⟨hkind, h⟩ := append_cons_inj_left (by decide) (by decide) h
  case shell.shell => rw [h]
  case exec.exec => exact congrArg Cmdline.exec (intercalate_inj hc hd hcs hds h)
  all_goals exact absurd hkind (by decide)

/-- What stands before the fields of a mount, and the texts of its flags. -/
def mountLabels : List Text :=
  ["from=".toList, "src=".toList, "tgt=".toList, "ro=".toList, "rw=".toList, "uid=".toList, "gid=".toList,
    "mode=".toList, "true".toList, "false".toList]

theorem Mount.notMem_fields {x : Char} {m : Mount} (hx : ∀ l ∈ mountLabels, x ∉ l) (ht : ∀ t ∈ m.texts, x ∉ t) :
    ∀ f ∈ m.fields, x ∉ f := by
  have hflag : ∀ b, x ∉ flag b := by
    intro b
    cases b with
    | false | true => exact hx _ (by decide)
  simp only [Mount.fields, forall_mem_cons]
  exact ⟨ht _ (by simp [Mount.texts]), not_mem_append (hx _ (by decide)) (ht _ (by simp [Mount.texts])),
    not_mem_append (hx _ (by decide)) (ht _ (by simp [Mount.texts])),
    not_mem_append (hx _ (by decide)) (ht _ (by simp [Mount.texts])),
    not_mem_append (hx _ (by decide)) (hflag _), not_mem_append (hx _ (by decide)) (hflag _),
    not_mem_append (hx _ (by decide)) (ht _ (by simp [Mount.texts])),
    not_mem_append (hx _ (by decide)) (ht _ (by simp [Mount.texts])),
    not_mem_append (hx _ (by decide)) (ht _ (by simp [Mount.texts])), by simp⟩

theorem Mount.notMem_text {x : Char} {l : List Mount} (hcolon : x ∉ [':']) (hx : ∀ l ∈ mountLabels, x ∉ l)
    (hl : ∀ t ∈ l.flatMap Mount.texts, x ∉ t) : ∀ t ∈ l.map Mount.text, x ∉ t := by
  intro t ht
  obtain ⟨m, hm, rfl⟩ := mem_map.mp ht
  exact notMem_intercalate hcolon (Mount.notMem_fields hx fun t ht => hl t (mem_flatMap.mpr ⟨m, hm, ht⟩))

theorem Mount.text_eq (m : Mount) : m.text = m.typ ++ (':' :: "from=".toList ++ (o m.fromRef ++
    (':' :: "src=".toList ++ (o m.source ++ (':' :: "tgt=".toList ++ (o m.target ++ (':' :: "ro=".toList ++
    (flag m.readonly ++ (':' :: "rw=".toList ++ (flag m.rw ++ (':' :: "uid=".toList ++ (o m.uid ++
    (':' :: "gid=".toList ++ (o m.gid ++ (':' :: "mode=".toList ++ o m.mode))))))))))))))) := by
  simp only [Mount.text, Mount.fields, intercalate_cons_cons, intercalate_singleton, append_assoc, cons_append,
    nil_append]

/-- What a mount's text tells of it. -/
theorem Mount.text_inj {m n : Mount} (hm : m.Separable) (hn : n.Separable) (h : m.text = n.text) :
    m.keyed = n.keyed := by
  obtain ⟨-, hm₁, hm₂, hm₃, hm₄, hm₅, hm₆⟩ := hm
  obtain ⟨-, hn₁, hn₂, hn₃, hn₄, hn₅, hn₆⟩ := hn
  have hflag : ∀ b, ¬ ':' :: "rw=".toList <:+: flag b ∧ ¬ ':' :: "uid=".toList <:+: flag b := by decide
  rw [Mount.text_eq, Mount.text_eq] at h
  obtain ⟨htyp, h⟩ := append_label_inj (by decide) hm₁ hn₁ h
  obtain ⟨hfrom, h⟩ := append_label_inj (by decide) hm₂ hn₂ h
  obtain ⟨hsource, h⟩ := append_label_inj (by decide) hm₃ hn₃ h
  obtain ⟨htarget, h⟩ := append_label_inj (by decide) hm₄ hn₄ h
  obtain ⟨hro, h⟩ := append_label_inj (by decide) (hflag _).1 (hflag _).1 h
  obtain ⟨hrw, h⟩ := append_label_inj (by decide) (hflag _).2 (hflag _).2 h
  obtain ⟨huid, h⟩ := append_label_inj (by decide) hm₅ hn₅ h
  obtain ⟨hgid, hmode⟩ := append_label_inj (by decide) hm₆ hn₆ h
  simp only [Mount.keyed, htyp, hfrom, hsource, htarget, flag_injective hro, flag_injective hrw, huid, hgid, hmode]

theorem Mount.text_ne_nil (m : Mount) : m.text ≠ [] := by
  rw [Mount.text, Mount.fields, intercalate_cons_cons]
  simp

/-- The texts of mounts, put together, tell them apart. -/
theorem mounts_inj {l m : List Mount} (hl : ∀ x ∈ l, x.Separable) (hm : ∀ x ∈ m, x.Separable)
    (h : [','].intercalate (l.map Mount.text) = [','].intercalate (m.map Mount.text)) :
    l.map Mount.keyed = m.map Mount.keyed := by
  have hcomma : ∀ {l : List Mount}, (∀ x ∈ l, x.Separable) → ∀ t ∈ l.map Mount.text, ',' ∉ t := by
    intro l hl
    refine Mount.notMem_text (by decide) (by decide) fun t ht => ?_
    obtain ⟨x, hx, ht⟩ := mem_flatMap.mp ht
    exact (hl x hx).1 t ht
  have hne : ∀ {l : List Mount}, ∀ t ∈ l.map Mount.text, t ≠ [] := by
    intro l t ht
    obtain ⟨x, _, rfl⟩ := mem_map.mp ht
    exact x.text_ne_nil
  exact map_eq_of_map_eq (fun _ _ hx hy hxy => Mount.text_inj hx hy hxy) hl hm
    (intercalate_inj_of_ne_nil (hcomma hl) (hcomma hm) hne hne h)

theorem notMem_pair {x : Char} (hx : x ≠ '=') {l : List (Text × Text)}
    (hl : ∀ t ∈ l.flatMap fun p => [p.1, p.2], x ∉ t) : ∀ t ∈ l.map pair, x ∉ t := by
  intro t ht
  obtain ⟨p, hp, rfl⟩ := mem_map.mp ht
  have hk := hl p.1 (mem_flatMap.mpr ⟨p, hp, by simp⟩)
  have hv := hl p.2 (mem_flatMap.mpr ⟨p, hp, by simp⟩)
  exact not_mem_append hk (not_mem_cons_of_ne_of_not_mem hx hv)

theorem kv_inj {l m : List (Text × Text)} (hl : ∀ t ∈ l.flatMap fun p => [p.1, p.2], us ∉ t)
    (hm : ∀ t ∈ m.flatMap fun p => [p.1, p.2], us ∉ t) (h : kv l us = kv m us) : l.map pair = m.map pair := by
  have hne : ∀ {l : List (Text × Text)}, ∀ t ∈ l.map pair, t ≠ [] := by
    intro l t ht
    obtain ⟨p, _, rfl⟩ := mem_map.mp ht
    simp [pair]
  exact intercalate_inj_of_ne_nil (notMem_pair (by decide) hl) (notMem_pair (by decide) hm) hne hne h

theorem pairs_inj {l m : List (Text × Text)} (hl : ∀ p ∈ l, '=' ∉ p.1) (hm : ∀ p ∈ m, '=' ∉ p.1)
    (h : l.map pair = m.map pair) : l = m := by
  have hpair : ∀ p q : Text × Text, '=' ∉ p.1 → '=' ∉ q.1 → pair p = pair q → id p = id q := by
    intro p q hp hq h
    obtain ⟨hkey, hvalue⟩ := append_cons_inj_left hp hq h
    exact Prod.ext hkey hvalue
  simpa using map_eq_of_map_eq hpair hl hm h

inductive Kind where
  | fromImage | run | copy | arg | env | workdir | user | label | entrypoint | cmd | other

def Instruction.kind : Instruction → Kind
  | .fromImage _ => .fromImage
  | .run _ => .run
  | .copy _ => .copy
  | .arg _ _ => .arg
  | .env _ => .env
  | .workdir _ => .workdir
  | .user _ => .user
  | .label _ => .label
  | .entrypoint _ => .entrypoint
  | .cmd _ => .cmd
  | .other _ _ => .other

def Kind.word : Kind → Text
  | .fromImage => "FROM".toList
  | .run => "RUN".toList
  | .copy => "COPY".toList
  | .arg => "ARG".toList
  | .env => "ENV".toList
  | .workdir => "WORKDIR".toList
  | .user => "USER".toList
  | .label => "LABEL".toList
  | .entrypoint => "ENTRYPOINT".toList
  | .cmd => "CMD".toList
  | .other => "OTHER".toList

theorem Kind.word_injective : Function.Injective Kind.word := by
  intro a b h
  cases a <;> cases b <;> first | rfl | exact absurd h (by decide)

theorem canonical_eq (i : Instruction) : ∃ rest, canonical i = i.kind.word ++ us :: rest := by
  cases i <;> exact ⟨_, intercalate_us_cons _ _ _⟩

/-- The text of an instruction starts with its kind. -/
theorem kind_eq_of_canonical {i j : Instruction} (h : canonical i = canonical j) : i.kind = j.kind := by
  have hword : ∀ k : Kind, us ∉ k.word := by
    intro k
    cases k <;> decide
  obtain ⟨ri, hi⟩ := canonical_eq i
  obtain ⟨rj, hj⟩ := canonical_eq j
  rw [hi, hj] at h
  exact Kind.word_injective (append_cons_inj_left (hword _) (hword _) h).1

/-- Runs of one text are alike. -/
theorem canonical_run_alike {r r' : Run} (hp : (Instruction.run r).Plain) (hp' : (Instruction.run r').Plain)
    (h : canonical (.run r) = canonical (.run r')) : (Instruction.run r).Alike (.run r') := by
  have hmounts : ∀ {r : Run}, (Instruction.run r).Plain → us ∉ "mounts=".toList ++ r.mountsText := by
    intro r hp
    refine not_mem_append (by decide) (notMem_intercalate (by decide) ?_)
    exact Mount.notMem_text (by decide) (by decide) fun t ht => (hp t (mem_append_right _ ht)).1
  have hsec : ∀ {r : Run}, (Instruction.run r).Plain → us ∉ "sec=".toList ++ o r.security := fun hp =>
    not_mem_append (by decide) (hp _ (by simp [Instruction.texts])).1
  have hnet : ∀ {r : Run}, (Instruction.run r).Plain → us ∉ "net=".toList ++ o r.network := fun hp =>
    not_mem_append (by decide) (hp _ (by simp [Instruction.texts])).1
  -- the command may have separators of its own, so the fields after it are taken off from the back
  obtain ⟨h₁, hm⟩ := @intercalate_concat_inj _ _ _ [_, _, _] [_, _, _] us _ _ (hmounts hp) (hmounts hp') h
  obtain ⟨h₂, hse⟩ := @intercalate_concat_inj _ _ _ [_, _] [_, _] us _ _ (hsec hp) (hsec hp') h₁
  obtain ⟨h₃, hne⟩ := @intercalate_concat_inj _ _ _ [_] [_] us _ _ (hnet hp) (hnet hp') h₂
  have hc := (intercalate_cons_inj (by decide) (by decide) h₃).2
  rw [intercalate_singleton, intercalate_singleton] at hc
  exact ⟨hc, append_cancel_left hne, append_cancel_left hse, append_cancel_left hm⟩

/-- Copies of one text are alike. -/
theorem canonical_copy_alike {c c' : Copy} (hp : (Instruction.copy c).Plain) (hp' : (Instruction.copy c').Plain)
    (h : canonical (.copy c) = canonical (.copy c')) : (Instruction.copy c).Alike (.copy c') := by
  have hfield : ∀ {c : Copy} {label : Text} {x : Option Text}, (Instruction.copy c).Plain → us ∉ label →
      o x ∈ (Instruction.copy c).texts → us ∉ label ++ o x :=
    fun hp hlabel hx => not_mem_append hlabel (hp _ hx).1
  have hlink : ∀ b, us ∉ "link=".toList ++ flag b := by decide
  obtain ⟨-, h₁⟩ := intercalate_cons_inj (by decide) (by decide) h
  obtain ⟨hfrom, h₂⟩ := intercalate_cons_inj (hfield hp (by decide) (by simp [Instruction.texts]))
    (hfield hp' (by decide) (by simp [Instruction.texts])) h₁
  obtain ⟨hchown, h₃⟩ := intercalate_cons_inj (hfield hp (by decide) (by simp [Instruction.texts]))
    (hfield hp' (by decide) (by simp [Instruction.texts])) h₂
  obtain ⟨hchmod, h₄⟩ := intercalate_cons_inj (hfield hp (by decide) (by simp [Instruction.texts]))
    (hfield hp' (by decide) (by simp [Instruction.texts])) h₃
  obtain ⟨hlinks, h₅⟩ := intercalate_cons_inj (hlink _) (hlink _) h₄
  rw [intercalate_singleton, intercalate_singleton] at h₅
  exact ⟨append_cancel_left hfrom, append_cancel_left hchown, append_cancel_left hchmod,
    flag_injective (append_cancel_left hlinks), h₅⟩

/-- Two instructions have one text if and only if they are alike. -/
theorem canonical_eq_iff {i j : Instruction} (hi : i.chained) (hp : i.Plain) (hp' : j.Plain) :
    canonical i = canonical j ↔ i.Alike j := by
  have htail : ∀ {w t t' : Text}, us ∉ w → [us].intercalate [w, t] = [us].intercalate [w, t'] → t = t' := by
    intro w t t' hw ht
    simpa using (intercalate_cons_inj hw hw ht).2
  constructor
  · intro h
    have hkind := kind_eq_of_canonical h
    cases i with
    | fromImage f | arg name default => exact absurd hi (by simp [Instruction.chained])
    | run r =>
      cases j with
      | run r' => exact canonical_run_alike hp hp' h
      | _ => nomatch hkind
    | copy c =>
      cases j with
      | copy c' => exact canonical_copy_alike hp hp' h
      | _ => nomatch hkind
    | env kvs =>
      cases j with
      | env kvs' => exact kv_inj (fun t ht => (hp t ht).1) (fun t ht => (hp' t ht).1) (htail (by decide) h)
      | _ => nomatch hkind
    | label kvs =>
      cases j with
      | label kvs' => exact kv_inj (fun t ht => (hp t ht).1) (fun t ht => (hp' t ht).1) (htail (by decide) h)
      | _ => nomatch hkind
    | workdir w =>
      cases j with
      | workdir w' => exact htail (by decide) h
      | _ => nomatch hkind
    | user u =>
      cases j with
      | user u' => exact htail (by decide) h
      | _ => nomatch hkind
    | entrypoint c =>
      cases j with
      | entrypoint c' => exact htail (by decide) h
      | _ => nomatch hkind
    | cmd c =>
      cases j with
      | cmd c' => exact htail (by decide) h
      | _ => nomatch hkind
    | other name args =>
      cases j with
      | other name' args' =>
        obtain ⟨-, h₁⟩ := intercalate_cons_inj (by decide) (by decide) h
        obtain ⟨hname, hargs⟩ := intercalate_cons_inj (hp _ (by simp [Instruction.texts])).1
          (hp' _ (by simp [Instruction.texts])).1 h₁
        rw [intercalate_singleton, intercalate_singleton] at hargs
        exact ⟨hname, hargs⟩
      | _ => nomatch hkind
  · intro h
    cases i <;> cases j <;> simp only [Instruction.Alike] at h
    case run.run r r' =>
      obtain ⟨hc, hne, hse, hm⟩ := h
      unfold Run.mountsText at hm
      simp only [canonical, hc, hne, hse, hm]
    case copy.copy c c' =>
      obtain ⟨hfrom, hchown, hchmod, hlink, hpaths⟩ := h
      unfold Copy.paths at hpaths
      simp only [canonical, hfrom, hchown, hchmod, hlink, hpaths]
    case other.other => simp only [canonical, h]
    all_goals simp only [canonical, kv, h]

/-- Alike instructions are the same where the other separators are in no field they end. -/
theorem Instruction.Alike.keyed_eq {i j : Instruction} (h : i.Alike j) (hp : i.Plain) (hp' : j.Plain)
    (hs : i.Separable) (hs' : j.Separable) : i.keyed = j.keyed := by
  cases i <;> cases j <;> simp only [Instruction.Alike] at h
  case run.run r r' =>
    obtain ⟨hc, hne, hse, hm⟩ := h
    have hcmd : ∀ {r : Run}, (Instruction.run r).Plain → ∀ t ∈ r.cmd.texts, us ∉ t := fun hp t ht =>
      (hp t (mem_append_left _ (mem_append_left _ ht))).1
    simp only [Instruction.keyed, Cmdline.text_inj (hcmd hp) (hcmd hp') hs.1 hs'.1 hc, hne, hse, mounts_inj hs.2 hs'.2 hm]
  case copy.copy c c' =>
    obtain ⟨hfrom, hchown, hchmod, hlink, hpaths⟩ := h
    rw [Copy.paths, Copy.paths, append_assoc, append_assoc] at hpaths
    obtain ⟨hsources, hdest⟩ := append_marker_inj (by decide) hs.2 hs'.2 hpaths
    have hus : ∀ {c : Copy}, (Instruction.copy c).Plain → ∀ t ∈ c.sources, us ∉ t := fun hp t ht =>
      (hp t (mem_append_left _ ht)).1
    simp only [Instruction.keyed, hfrom, hchown, hchmod, hlink, hdest,
      intercalate_inj (hus hp) (hus hp') hs.1 hs'.1 hsources]
  case env.env | label.label => rw [pairs_inj hs hs' h]
  case entrypoint.entrypoint | cmd.cmd =>
    rw [Cmdline.text_inj (fun t ht => (hp t ht).1) (fun t ht => (hp' t ht).1) hs hs' h]
  case workdir.workdir | user.user => rw [h]
  case other.other => rw [h.1, h.2]

theorem newline_notMem_parts {p : Text} {l : List Text} (hp : '\n' ∉ p) (hl : ∀ t ∈ l, '\n' ∉ t) :
    '\n' ∉ [us].intercalate (p :: l) :=
  notMem_intercalate (by decide) (forall_mem_cons.mpr ⟨hp, hl⟩)

theorem newline_notMem_cmdline {c : Cmdline} (hc : ∀ t ∈ c.texts, '\n' ∉ t) : '\n' ∉ c.text := by
  cases c with
  | shell s => exact newline_notMem_parts (by decide) hc
  | exec v =>
    exact newline_notMem_parts (by decide) (forall_mem_singleton.mpr (notMem_intercalate (by decide) hc))

theorem newline_notMem_kv {kvs : List (Text × Text)} (hkvs : ∀ t ∈ kvs.flatMap fun p => [p.1, p.2], '\n' ∉ t) :
    '\n' ∉ kv kvs us :=
  notMem_intercalate (by decide) (notMem_pair (by decide) hkvs)

/-- A plain instruction's text is one line. -/
theorem newline_notMem_canonical {i : Instruction} (hp : i.Plain) : '\n' ∉ canonical i := by
  have hline : ∀ t ∈ i.texts, '\n' ∉ t := fun t ht => (hp t ht).2
  have hflag : ∀ b, '\n' ∉ flag b := by decide
  cases i with
  | fromImage f => exact newline_notMem_parts (by decide) hline
  | run r =>
    refine newline_notMem_parts (by decide) ?_
    have hmounts : '\n' ∉ [','].intercalate (r.mounts.map Mount.text) :=
      notMem_intercalate (by decide) <| Mount.notMem_text (by decide) (by decide) fun t ht =>
        hline t (mem_append_right _ ht)
    simp only [forall_mem_cons]
    exact ⟨newline_notMem_cmdline fun t ht => hline t (mem_append_left _ (mem_append_left _ ht)),
      not_mem_append (by decide) (hline _ (by simp [Instruction.texts])),
      not_mem_append (by decide) (hline _ (by simp [Instruction.texts])),
      not_mem_append (by decide) hmounts, by simp⟩
  | copy c =>
    refine newline_notMem_parts (by decide) ?_
    have hsources : '\n' ∉ [us].intercalate c.sources :=
      notMem_intercalate (by decide) fun t ht => hline t (mem_append_left _ ht)
    simp only [forall_mem_cons]
    exact ⟨not_mem_append (by decide) (hline _ (by simp [Instruction.texts])),
      not_mem_append (by decide) (hline _ (by simp [Instruction.texts])),
      not_mem_append (by decide) (hline _ (by simp [Instruction.texts])),
      not_mem_append (by decide) (hflag _),
      not_mem_append (not_mem_append hsources (by decide)) (hline _ (by simp [Instruction.texts])), by simp⟩
  | arg name default =>
    have hname := hline name (by simp [Instruction.texts])
    have hdefault := hline (o default) (by simp [Instruction.texts])
    exact newline_notMem_parts (by decide)
      (forall_mem_singleton.mpr (not_mem_append (not_mem_append hname (by decide)) hdefault))
  | env kvs | label kvs => exact newline_notMem_parts (by decide) (forall_mem_singleton.mpr (newline_notMem_kv hline))
  | workdir w | user u => exact newline_notMem_parts (by decide) hline
  | entrypoint c | cmd c =>
    exact newline_notMem_parts (by decide) (forall_mem_singleton.mpr (newline_notMem_cmdline hline))
  | other name args => exact newline_notMem_parts (by decide) hline

end Virtkit.Build
