import Mathlib.Data.List.TakeWhile
import Virtkit.Common.Separated
import Virtkit.Mask.Phrase

/-!
# Masking URL parameters

A filter that replaces the values of sensitive URL parameters. It keeps the key read so far from one write to the
next, up to the longest one there is; within a write it looks ahead for the end of the key. What it is for is said by
a machine that reads one byte after the other and keeps the whole key.
-/

namespace Virtkit.Mask

open Virtkit.Common List

/-- The URL parameters whose values are masked. -/
def paramKeys : List Bytes :=
  ["private_token", "authenticity_token", "rss_token", "x-amz-signature", "x-amz-credential",
    "x-amz-security-token"].map ascii

/-- What comes before a key: `?` or `&`. -/
def isSep (b : UInt8) : Bool := b == 63 || b == 38

def endsKey (b : UInt8) : Bool := isSep b || b == 61

/-- Where a parameter's value ends: at a separator, white space or a control character. -/
def paramEnd (b : UInt8) : Bool := isSep b || b ≤ 32 || b == 127

/-- A key is one of those whose values are masked. -/
def Sensitive (key : Bytes) : Prop := key.map asciiLower ∈ paramKeys

instance : DecidablePred Sensitive := fun key => inferInstanceAs (Decidable (key.map asciiLower ∈ paramKeys))

/-- The separator and the key read so far, and whether a value is being masked. -/
structure UrlParams where
  key : Bytes := []
  masking : Bool := false

namespace UrlParams

/-- The longest key, plus its separator. -/
def cap : ℕ := 21

/-- The loop of a write, with the bytes not passed on yet. Where the source goes on within one turn after the end of a
value or the start of a key, this takes another turn, which finds the same. -/
def scan : ℕ → UrlParams → Bytes → Bytes → List Bytes × UrlParams
  | 0, u, pending, _ => (emit pending, u)
  | fuel + 1, u, pending, p =>
    if p.isEmpty then (emit pending, u)
    else if u.masking then
      match p.dropWhile (!paramEnd ·) with
      | [] => ([], u)
      | b :: rest =>
        let r := scan fuel ⟨u.key, false⟩ pending (b :: rest)
        (mask :: r.1, r.2)
    else if u.key = [] ∨ u.key.length = cap then
      match p.dropWhile (!isSep ·) with
      | [] => (emit (pending ++ p), {})
      | sep :: rest => scan fuel ⟨[sep], false⟩ (pending ++ p.takeWhile (!isSep ·) ++ [sep]) rest
    else
      let name := p.takeWhile (!endsKey ·)
      match p.dropWhile (!endsKey ·) with
      | [] => scan fuel ⟨u.key ++ p.take 1, false⟩ (pending ++ p.take 1) (p.drop 1)
      | b :: rest =>
        if isSep b then scan fuel {} (pending ++ name) (b :: rest)
        else if cap < name.length + u.key.length then scan fuel {} (pending ++ p.take 1) (p.drop 1)
        else if Sensitive ((u.key ++ name).drop 1) then
          let r := scan fuel ⟨[], true⟩ [] rest
          (emit (pending ++ name ++ [b]) ++ r.1, r.2)
        else scan fuel {} (pending ++ name ++ [b]) rest

/-- Pass a write on, but for the values of sensitive parameters. -/
def write (u : UrlParams) (p : Bytes) : List Bytes × UrlParams := scan (2 * p.length + 2) u [] p

/-- The mask of a value that the output ends in. -/
def close (u : UrlParams) : List Bytes := if u.masking then [mask] else []

/-- Writes, and the close after them. -/
def run (u : UrlParams) : List Bytes → List Bytes
  | [] => u.close
  | p :: rest =>
    let r := u.write p
    r.1 ++ r.2.run rest

end UrlParams

/-- Where a text is: in no key, in a key, or in the value of a sensitive parameter. -/
inductive ParamState
  | plain
  | key (name : Bytes)
  | value

namespace ParamState

/-- One byte: what is passed on, and where the text is then. -/
def step (c : UInt8) : ParamState → Bytes × ParamState
  | .plain => ([c], if isSep c then .key [] else .plain)
  | .key name =>
    ([c], if isSep c then .key [] else if c = 61 then if Sensitive name then .value else .plain else .key (name ++ [c]))
  | .value => if paramEnd c then (mask ++ [c], if isSep c then .key [] else .plain) else ([], .value)

/-- A text from somewhere. -/
def run : ParamState → Bytes → Bytes × ParamState
  | σ, [] => ([], σ)
  | σ, c :: p => ((σ.step c).1 ++ ((σ.step c).2.run p).1, ((σ.step c).2.run p).2)

/-- The mask of a value that a text ends in. -/
def close : ParamState → Bytes
  | .value => mask
  | _ => []

/-- What is passed on of a text, to its end. -/
def out (σ : ParamState) (p : Bytes) : Bytes := (σ.run p).1 ++ (σ.run p).2.close

/-- No key that the text goes on with is a sensitive one, nor is one still to come: if the key ends it is not, and if
it does not it is too long. -/
def Lost (p : Bytes) : ParamState → Prop
  | .plain => True
  | .key name =>
    (∀ more rest, p = more ++ 61 :: rest → (∀ c ∈ more, endsKey c = false) → ¬ Sensitive (name ++ more)) ∧
      ((∀ c ∈ p, endsKey c = false) → 20 < name.length + p.length)
  | .value => False

variable {σ : ParamState} {p q name : Bytes} {c : UInt8}

theorem run_append (σ : ParamState) (p q : Bytes) :
    σ.run (p ++ q) = ((σ.run p).1 ++ ((σ.run p).2.run q).1, ((σ.run p).2.run q).2) := by
  induction p generalizing σ with
  | nil => rfl
  | cons c p ih => simp only [cons_append, run, ih, append_assoc]

theorem out_append (σ : ParamState) (p q : Bytes) : σ.out (p ++ q) = (σ.run p).1 ++ (σ.run p).2.out q := by
  rw [out, run_append, append_assoc]
  rfl

theorem run_key (hp : ∀ c ∈ p, endsKey c = false) : (key name).run p = (p, .key (name ++ p)) := by
  induction p generalizing name with
  | nil => rw [run, append_nil]
  | cons c p ih =>
    have hc := hp c mem_cons_self
    rw [endsKey, Bool.or_eq_false_iff] at hc
    have hstep : (key name).step c = ([c], .key (name ++ [c])) := by
      simp [step, hc.1, beq_eq_false_iff_ne.mp hc.2]
    rw [run, hstep, ih fun x hx => hp x (mem_cons_of_mem c hx)]
    simp

theorem isSep_of_paramEnd (h : paramEnd c = false) : isSep c = false := by
  cases hc : isSep c with
  | false => rfl
  | true => simp [paramEnd, hc] at h

theorem run_plain (hp : ∀ c ∈ p, isSep c = false) : plain.run p = (p, .plain) := by
  induction p with
  | nil => rfl
  | cons c p ih =>
    have hstep : plain.step c = ([c], .plain) := by simp [step, hp c mem_cons_self]
    rw [run, hstep, ih fun x hx => hp x (mem_cons_of_mem c hx)]
    rfl

theorem run_value (hp : ∀ c ∈ p, paramEnd c = false) : value.run p = ([], .value) := by
  induction p with
  | nil => rfl
  | cons c p ih =>
    have hstep : value.step c = ([], .value) := by simp [step, hp c mem_cons_self]
    rw [run, hstep, ih fun x hx => hp x (mem_cons_of_mem c hx)]
    rfl

theorem run_value_end (hc : paramEnd c = true) (p : Bytes) :
    value.run (c :: p) = (mask ++ (plain.run (c :: p)).1, (plain.run (c :: p)).2) := by
  simp [run, step, hc]

theorem step_sep (hc : isSep c = true) (σ : ParamState) : (σ.step c).2 = .key [] := by
  cases σ <;> simp [step, hc, paramEnd]

theorem length_of_sensitive (h : Sensitive name) : name.length ≤ 20 := by
  have hall : ∀ key ∈ paramKeys, key.length ≤ 20 := by decide
  simpa using hall _ h

/-- A key that is too long is written as it is. -/
theorem Lost.step (h : σ.Lost (c :: p)) (hc : isSep c = false) : (σ.step c).1 = [c] ∧ (σ.step c).2.Lost p := by
  cases σ with
  | plain => simp [step, hc, Lost]
  | value => exact h.elim
  | key name =>
    refine ⟨rfl, ?_⟩
    by_cases heq : c = 61
    · subst heq
      have hnot := h.1 [] p rfl nofun
      rw [append_nil] at hnot
      simp [step, hc, hnot, Lost]
    · have hplain : endsKey c = false := by simp [endsKey, hc, heq]
      simp only [step, hc, heq, if_false, Bool.false_eq_true]
      refine ⟨fun more rest hp hmore => ?_, fun hp => ?_⟩
      · rw [append_assoc, singleton_append]
        refine h.1 (c :: more) rest (by rw [hp]; rfl) fun x hx => ?_
        rcases mem_cons.mp hx with rfl | hx
        · exact hplain
        · exact hmore x hx
      · have hlong := h.2 fun x hx => ?_
        · simp only [length_append, length_cons] at hlong ⊢
          omega
        · rcases mem_cons.mp hx with rfl | hx
          · exact hplain
          · exact hp x hx

theorem Lost.step_sep (h : σ.Lost p) (hc : isSep c = true) : σ.step c = ([c], .key []) := by
  cases σ with
  | plain | key name => simp [ParamState.step, hc]
  | value => exact h.elim

theorem Lost.run (h : σ.Lost (p ++ q)) (hp : ∀ c ∈ p, isSep c = false) : (σ.run p).1 = p ∧ (σ.run p).2.Lost q := by
  induction p generalizing σ with
  | nil => exact ⟨rfl, h⟩
  | cons c p ih =>
    obtain ⟨hout, hlost⟩ := Lost.step h (hp c mem_cons_self)
    obtain ⟨hrest, hend⟩ := ih hlost fun x hx => hp x (mem_cons_of_mem c hx)
    exact ⟨by rw [run, hout, hrest]; rfl, hend⟩

theorem Lost.next (h : σ.Lost []) (p : Bytes) : σ.Lost p := by
  cases σ with
  | plain => trivial
  | value => exact h
  | key name =>
    have hlong := h.2 nofun
    refine ⟨fun more rest _ _ hsens => ?_, fun _ => by simp at hlong; omega⟩
    have hle := length_of_sensitive hsens
    simp at hlong hle
    omega

/-- A key starts after a separator. -/
theorem exists_of_run_key (h : (plain.run p).2 = .key name) :
    ∃ text sep, isSep sep = true ∧ p = text ++ sep :: name := by
  induction p using List.reverseRecOn generalizing name with
  | nil => nomatch h
  | append_singleton p c ih =>
    rw [run_append] at h
    change ((plain.run p).2.step c).2 = .key name at h
    by_cases hc : isSep c = true
    · have hnil : name = [] := by
        cases hσ : (plain.run p).2 <;> rw [hσ] at h <;> simp_all [step, paramEnd]
      exact ⟨p, c, hc, by rw [hnil]⟩
    · cases hσ : (plain.run p).2 with
      | plain => simp [hσ, step, hc] at h
      | value =>
        rw [hσ, step] at h
        split_ifs at h
      | key old =>
        obtain ⟨text, sep, hsep, rfl⟩ := ih hσ
        simp only [hσ, step, hc, if_false, Bool.false_eq_true] at h
        split_ifs at h
        obtain rfl := key.inj h
        exact ⟨text, sep, hsep, by simp⟩

end ParamState

namespace UrlParams

open ParamState (Lost run_append run_key run_value run_value_end length_of_sensitive plain)

variable {u : UrlParams} {σ : ParamState} {p : Bytes}

/-- The filter is where the text is: in a value, at no key that matters, or in a key no longer than the longest. A key
as long as the longest is lost if the write goes on. -/
inductive At (p : Bytes) : UrlParams → ParamState → Prop
  | value : At p ⟨[], true⟩ .value
  | lost {σ : ParamState} (h : σ.Lost p) : At p {} σ
  | key (sep : UInt8) (name : Bytes) (hle : name.length ≤ 20) (hshort : p ≠ [] → name.length < 20) :
      At p ⟨sep :: name, false⟩ (.key name)
  | full (sep : UInt8) {name : Bytes} {σ : ParamState} (hlen : name.length = 20) (h : σ.Lost p) :
      At p ⟨sep :: name, false⟩ σ

/-- How many turns the loop takes at most. -/
def turns (u : UrlParams) (p : Bytes) : ℕ :=
  2 * p.length + (if u.masking then 1 else 0) + if u.key = [] then 0 else 1

theorem takeWhile_dropWhile {f : UInt8 → Bool} {p : Bytes} {b : UInt8} {rest : Bytes}
    (h : p.dropWhile (!f ·) = b :: rest) :
    p = p.takeWhile (!f ·) ++ b :: rest ∧ f b = true ∧ ∀ c ∈ p.takeWhile (!f ·), f c = false := by
  refine ⟨by rw [← h, takeWhile_append_dropWhile], ?_, fun c hc => ?_⟩
  · have hhead := head_dropWhile_not (!f ·) (l := p) (by rw [h]; exact cons_ne_nil _ _)
    simpa [h] using hhead
  · simpa using mem_takeWhile_imp hc

theorem dropWhile_none {f : UInt8 → Bool} {p : Bytes} (h : p.dropWhile (!f ·) = []) : ∀ c ∈ p, f c = false := by
  simpa using dropWhile_eq_nil_iff.mp h

/-- What a turn of the loop leaves to the ones after it. -/
def Turns (fuel : ℕ) : Prop :=
  ∀ (u : UrlParams) (σ : ParamState) (p pending : Bytes), u.turns p ≤ fuel → At p u σ →
    (u.masking = true → pending = []) →
    (scan fuel u pending p).1.flatten = pending ++ (σ.run p).1 ∧ At [] (scan fuel u pending p).2 (σ.run p).2

/-- The turns while no key is followed. -/
theorem Turns.search {fuel : ℕ} (ih : Turns fuel) {pending : Bytes} (hfuel : 2 * p.length ≤ fuel + 1) (h : σ.Lost p) :
    let r := match p.dropWhile (!isSep ·) with
      | [] => (emit (pending ++ p), ({} : UrlParams))
      | sep :: rest => scan fuel ⟨[sep], false⟩ (pending ++ p.takeWhile (!isSep ·) ++ [sep]) rest
    r.1.flatten = pending ++ (σ.run p).1 ∧ At [] r.2 (σ.run p).2 := by
  cases hrest : p.dropWhile (!isSep ·) with
  | nil =>
    obtain ⟨hout, hlost⟩ := Lost.run (q := []) (by rwa [append_nil]) (dropWhile_none hrest)
    refine ⟨?_, .lost hlost⟩
    rw [hout, flatten_emit]
  | cons sep rest =>
    obtain ⟨hp, hsep, hbefore⟩ := takeWhile_dropWhile hrest
    have hlen := congrArg List.length hp
    rw [length_append, length_cons] at hlen
    rw [hp] at h
    obtain ⟨hout, hlost⟩ := Lost.run h hbefore
    have hstep := hlost.step_sep hsep
    obtain ⟨hnext, hat⟩ := ih ⟨[sep], false⟩ _ rest (pending ++ p.takeWhile (!isSep ·) ++ [sep])
      (by simp [turns]; omega) (.key sep [] (Nat.zero_le _) fun _ => Nat.succ_pos _) nofun
    have hrun : σ.run p = (p.takeWhile (!isSep ·) ++ (sep :: ((ParamState.key []).run rest).1),
        ((ParamState.key []).run rest).2) := by
      conv_lhs => rw [hp, run_append, ParamState.run, hout, hstep]
      rfl
    rw [hrun]
    refine ⟨?_, hat⟩
    rw [hnext]
    simp

theorem endsKey_singleton {c : UInt8} (h : endsKey c = false) : ∀ x ∈ [c], endsKey x = false := fun x hx => by
  rwa [mem_singleton.mp hx]

/-- The turns while a key is followed. -/
theorem Turns.track {fuel : ℕ} (ih : Turns fuel) {pending name : Bytes} {sep : UInt8} (hne : p ≠ [])
    (hfuel : 2 * p.length ≤ fuel) (hshort : name.length < 20) : let before := p.takeWhile (!endsKey ·)
    let r := match p.dropWhile (!endsKey ·) with
      | [] => scan fuel ⟨sep :: name ++ p.take 1, false⟩ (pending ++ p.take 1) (p.drop 1)
      | b :: rest =>
        if isSep b then scan fuel {} (pending ++ before) (b :: rest)
        else if cap < before.length + (sep :: name).length then scan fuel {} (pending ++ p.take 1) (p.drop 1)
        else if Sensitive ((sep :: name ++ before).drop 1) then
          let r := scan fuel ⟨[], true⟩ [] rest
          (emit (pending ++ before ++ [b]) ++ r.1, r.2)
        else scan fuel {} (pending ++ before ++ [b]) rest
    r.1.flatten = pending ++ ((ParamState.key name).run p).1 ∧ At [] r.2 ((ParamState.key name).run p).2 := by
  obtain ⟨c, t, rfl⟩ := exists_cons_of_ne_nil hne
  have hone : endsKey c = false → (ParamState.key name).run (c :: t) =
      (c :: ((ParamState.key (name ++ [c])).run t).1, ((ParamState.key (name ++ [c])).run t).2) := fun hc => by
    rw [← singleton_append, run_append, run_key (endsKey_singleton hc)]
    rfl
  cases hrest : (c :: t).dropWhile (!endsKey ·) with
  | nil =>
    have hplain := dropWhile_none hrest
    have hkey : At t ⟨sep :: (name ++ [c]), false⟩ (.key (name ++ [c])) := by
      have hle : (name ++ [c]).length ≤ 20 := by simp; omega
      by_cases hfull : t ≠ [] ∧ (name ++ [c]).length = 20
      · refine .full sep hfull.2 ⟨fun more rest heq _ => ?_, fun _ => ?_⟩
        · have hequals := hplain 61 (mem_cons_of_mem c (heq ▸ by simp))
          cases hequals
        · have hpos := length_pos_iff.mpr hfull.1
          omega
      · exact .key sep _ hle fun ht => hle.lt_of_ne fun hlen => hfull ⟨ht, hlen⟩
    obtain ⟨hnext, hat⟩ := ih _ _ t (pending ++ [c]) (by simp [turns] at hfuel ⊢; omega) hkey (by rintro ⟨⟩)
    rw [hone (hplain c mem_cons_self)]
    exact ⟨by simpa using hnext, hat⟩
  | cons b rest =>
    obtain ⟨hp, hb, hbefore⟩ := takeWhile_dropWhile hrest
    set before := (c :: t).takeWhile (!endsKey ·)
    have hlen := congrArg List.length hp
    rw [length_append, length_cons, length_cons] at hlen
    rw [length_cons] at hfuel
    have hrun : (ParamState.key name).run (c :: t) = (before ++ ((ParamState.key (name ++ before)).run (b :: rest)).1,
        ((ParamState.key (name ++ before)).run (b :: rest)).2) := by
      rw [hp, run_append, run_key hbefore]
    dsimp only
    split_ifs with hsep hlong hsens
    · have hlost : At (b :: rest) {} (.key (name ++ before)) := by
        refine .lost ⟨fun more rest' heq hmore => ?_, fun hall => ?_⟩
        · cases more with
          | nil =>
            obtain ⟨rfl, -⟩ := List.cons.inj heq
            cases hsep
          | cons x more =>
            obtain ⟨rfl, -⟩ := List.cons.inj heq
            cases hb.symm.trans (hmore b mem_cons_self)
        · cases hb.symm.trans (hall b mem_cons_self)
      obtain ⟨hnext, hat⟩ := ih _ _ (b :: rest) (pending ++ before) (by simp [turns]; omega) hlost (by rintro ⟨⟩)
      rw [hrun]
      exact ⟨by rw [hnext, append_assoc], hat⟩
    · -- The key is too long.
      have hequals : b = 61 := by simpa [endsKey, hsep] using hb
      subst hequals
      cases hbefore' : before with
      | nil => simp [hbefore', cap] at hlong; omega
      | cons x more =>
        rw [hbefore'] at hp hbefore hlong
        obtain ⟨rfl, ht⟩ := List.cons.inj hp
        have hlost : At t {} (.key (name ++ [c])) := by
          refine .lost ⟨fun more' rest' heq hmore hsens => ?_, fun hall => ?_⟩
          · have hmore' : ∀ {l : Bytes}, (∀ y ∈ l, endsKey y = false) → (61 : UInt8) ∉ l := fun h hmem => by cases h 61 hmem
            obtain ⟨rfl, -⟩ := append_cons_inj_left (hmore' hmore)
              (hmore' fun y hy => hbefore y (mem_cons_of_mem c hy)) (heq.symm.trans ht)
            have hle := length_of_sensitive hsens
            simp [cap] at hle hlong
            omega
          · cases hall 61 (ht ▸ by simp)
        obtain ⟨hnext, hat⟩ := ih _ _ t (pending ++ [c]) (by simp [turns]; omega) hlost (by rintro ⟨⟩)
        rw [hone (hbefore c mem_cons_self)]
        exact ⟨by simpa using hnext, hat⟩
    all_goals
      have hequals : b = 61 := by simpa [endsKey, hsep] using hb
      subst hequals
      have hsens' : Sensitive (name ++ before) ↔ Sensitive ((sep :: name ++ before).drop 1) := Iff.rfl
    · have hstep : (ParamState.key (name ++ before)).step 61 = ([61], .value) := by
        simp [ParamState.step, hsep, hsens'.mpr hsens]
      obtain ⟨hnext, hat⟩ := ih ⟨[], true⟩ .value rest [] (by simp [turns]; omega) .value fun _ => rfl
      rw [hrun, ParamState.run, hstep]
      exact ⟨by simp [hnext], hat⟩
    · have hstep : (ParamState.key (name ++ before)).step 61 = ([61], .plain) := by
        simp [ParamState.step, hsep, mt hsens'.mp hsens]
      obtain ⟨hnext, hat⟩ := ih {} .plain rest (pending ++ before ++ [61]) (by simp [turns]; omega) (.lost trivial)
        (by rintro ⟨⟩)
      rw [hrun, ParamState.run, hstep]
      exact ⟨by rw [hnext]; simp, hat⟩

/-- Within a write the filter passes on what the machine does, and is where it is at the end. -/
theorem turns_all (fuel : ℕ) : Turns fuel := by
  induction fuel with
  | zero =>
    intro u σ p pending hfuel h _
    obtain rfl : p = [] := length_eq_zero_iff.mp (by unfold turns at hfuel; omega)
    exact ⟨by simp [scan, ParamState.run], h⟩
  | succ fuel ih =>
    intro u σ p pending hfuel h hpending
    rw [scan]
    by_cases hempty : p.isEmpty
    · rw [if_pos hempty]
      obtain rfl := isEmpty_iff.mp hempty
      exact ⟨by simp [ParamState.run], h⟩
    rw [if_neg hempty]
    have hne : p ≠ [] := fun hnil => hempty (isEmpty_iff.mpr hnil)
    cases h with
    | value =>
      rw [if_pos rfl, hpending rfl]
      cases hrest : p.dropWhile (!paramEnd ·) with
      | nil =>
        rw [run_value (dropWhile_none hrest)]
        exact ⟨rfl, .value⟩
      | cons b rest =>
        obtain ⟨hp, hb, hbefore⟩ := takeWhile_dropWhile hrest
        have hlen := congrArg List.length hp
        rw [length_append] at hlen
        obtain ⟨hnext, hat⟩ := ih {} .plain (b :: rest) []
          (by simp [turns] at hfuel ⊢; simp at hlen; omega) (.lost trivial) nofun
        rw [hp, run_append, run_value hbefore, run_value_end hb]
        exact ⟨by simpa using hnext, hat⟩
    | lost hlost =>
      rw [if_neg Bool.false_ne_true, if_pos (.inl rfl)]
      exact Turns.search ih (by simp [turns] at hfuel; omega) hlost
    | key sep name hle hshort =>
      have hshort := hshort hne
      rw [if_neg Bool.false_ne_true, if_neg (by simp [cap, hshort.ne])]
      exact Turns.track ih hne (by simp [turns] at hfuel; omega) hshort
    | full sep hlen hlost =>
      rw [if_neg Bool.false_ne_true, if_pos (.inr (by simp [hlen, cap]))]
      exact Turns.search ih (by simp [turns] at hfuel; omega) hlost

/-- A text is cut between the longest key and its `=`, and the value is not the mask itself. -/
def LeaksAt (done rest : Bytes) : Prop :=
  ∃ text sep key more, done = text ++ sep :: key ∧ isSep sep = true ∧
    key.map asciiLower = ascii "x-amz-security-token" ∧ rest = 61 :: more ∧ more.takeWhile (!paramEnd ·) ≠ mask

/-- Of the writes after a text, one ends where a value leaks. -/
def LeaksFrom (done : Bytes) (todo : List Bytes) : Prop :=
  ∃ before after, todo = before ++ after ∧ LeaksAt (done ++ before.flatten) after.flatten

/-- A write ends between the longest key and its `=`, and the value is not the mask itself. -/
def Leaks (writes : List Bytes) : Prop := ∃ before after, writes = before ++ after ∧ LeaksAt before.flatten after.flatten

variable {done : Bytes} {todo : List Bytes}

theorem leaksFrom_cons : LeaksFrom done (p :: todo) ↔ LeaksAt done (p ++ todo.flatten) ∨ LeaksFrom (done ++ p) todo := by
  constructor
  · rintro ⟨before, after, heq, hleak⟩
    cases before with
    | nil =>
      obtain rfl : p :: todo = after := heq
      exact .inl (by simpa using hleak)
    | cons q before =>
      obtain ⟨rfl, rfl⟩ := List.cons.inj heq
      exact .inr ⟨before, after, rfl, by simpa using hleak⟩
  · rintro (hleak | ⟨before, after, rfl, hleak⟩)
    · exact ⟨[], p :: todo, rfl, by simpa using hleak⟩
    · exact ⟨p :: before, after, rfl, by simpa using hleak⟩

theorem not_leaksFrom_nil : ¬ LeaksFrom done [] := by
  rintro ⟨before, after, heq, _, _, _, _, _, _, _, hrest, _⟩
  obtain ⟨rfl, rfl⟩ := append_eq_nil_iff.mp heq.symm
  nomatch hrest

/-- A value leaks where the text is at the end of the longest key, and goes on with its `=`. -/
theorem leaksAt_iff {more : Bytes} : LeaksAt done (61 :: more) ↔ (∃ name, (plain.run done).2 = .key name ∧
    name.length = 20 ∧ Sensitive name) ∧ more.takeWhile (!paramEnd ·) ≠ mask := by
  constructor
  · rintro ⟨text, sep, key, more', rfl, hsep, hkey, hrest, hvalue⟩
    obtain rfl := (List.cons.inj hrest).2
    have hplain : ∀ c ∈ key, endsKey c = false := by
      intro c hc
      by_contra hends
      have hmem : asciiLower c ∈ ascii "x-amz-security-token" := hkey ▸ mem_map_of_mem hc
      simp only [endsKey, isSep, Bool.not_eq_false, Bool.or_eq_true, beq_iff_eq] at hends
      rcases hends with (rfl | rfl) | rfl <;> exact absurd hmem (by decide)
    have hlength : key.length = 20 := by
      have := congrArg List.length hkey
      rwa [length_map] at this
    refine ⟨⟨key, ?_, hlength, ?_⟩, hvalue⟩
    · rw [run_append, ParamState.run, ParamState.step_sep hsep, run_key hplain]
      rfl
    · unfold Sensitive
      rw [hkey]
      decide
  · rintro ⟨⟨name, hname, hlen, hsens⟩, hvalue⟩
    have honly : ∀ key ∈ paramKeys, key.length = 20 → key = ascii "x-amz-security-token" := by decide
    obtain ⟨text, sep, hsep, htext⟩ := ParamState.exists_of_run_key hname
    exact ⟨text, sep, name, more, htext, hsep, honly _ hsens (by simpa using hlen), rfl, hvalue⟩

theorem LeaksAt.rest {rest : Bytes} (h : LeaksAt done rest) : ∃ more, rest = 61 :: more := by
  obtain ⟨-, -, -, more, -, -, -, rfl, -⟩ := h
  exact ⟨more, rfl⟩

/-- Unless a sensitive key as long as the longest ends with the write, the filter goes on where the text is. -/
theorem At.next (h : At [] u σ) (hgood : ∀ name t, σ = .key name → name.length = 20 → Sensitive name → p ≠ 61 :: t) :
    At p u σ := by
  cases h with
  | value => exact .value
  | lost hlost => exact .lost (hlost.next p)
  | full sep hlen hlost => exact .full sep hlen (hlost.next p)
  | key sep name hle =>
    by_cases hfull : p ≠ [] ∧ name.length = 20
    · refine .full sep hfull.2 ⟨fun more rest hp _ hsens => ?_, fun _ => ?_⟩
      · have hlong := length_of_sensitive hsens
        obtain rfl : more = [] := length_eq_zero_iff.mp (by rw [length_append] at hlong; omega)
        rw [append_nil] at hsens
        exact hgood name rest rfl hfull.2 hsens hp
      · have hpos := length_pos_iff.mpr hfull.1
        omega
    · exact .key sep name hle fun hne => hle.lt_of_ne fun hlen => hfull ⟨hne, hlen⟩

/-- A write does to its bytes what the state machine does, from any point. -/
theorem write_spec (h : At p u σ) : (u.write p).1.flatten = (σ.run p).1 ∧ At [] (u.write p).2 (σ.run p).2 :=
  turns_all (2 * p.length + 2) u σ p [] (by unfold turns; split_ifs <;> omega) h fun _ => rfl

/-- The filter passes on what the machine does exactly if no value leaks: where it is where the text is, and where it
has passed on a part of a value that the machine masks. -/
structure Exact (done : Bytes) (todo : List Bytes) : Prop where
  along : ∀ u, At [] u (plain.run done).2 →
    ((u.run todo).flatten = (plain.run done).2.out todo.flatten ↔ ¬ LeaksFrom done todo)
  leaking : ∀ u acc, At [] u .plain → (plain.run done).2 = .value → (∀ c ∈ acc, paramEnd c = false) →
    (acc ++ (u.run todo).flatten = ParamState.value.out todo.flatten ↔
      acc ++ todo.flatten.takeWhile (!paramEnd ·) = mask ∧ ¬ LeaksFrom done todo)

theorem paramEnd_mask : ∀ x ∈ mask, paramEnd x = false := by
  have hall : mask.all (!paramEnd ·) = true := by decide
  simpa using hall

/-- In a value, output is that of the whole text if no leak follows. -/
theorem Exact.leak (acc : Bytes) (h : Exact (done ++ p) todo) (hat : At [] u (plain.run p).2)
    (hdone : (plain.run done).2 = .value) (hacc : ∀ c ∈ acc, paramEnd c = false) :
    acc ++ ((plain.run p).1 ++ (u.run todo).flatten) = ParamState.value.out (p ++ todo.flatten) ↔
      acc ++ (p ++ todo.flatten).takeWhile (!paramEnd ·) = mask ∧ ¬ LeaksFrom (done ++ p) todo := by
  have hstate : (plain.run (done ++ p)).2 = (ParamState.value.run p).2 := by rw [run_append, hdone]
  rw [ParamState.out_append]
  cases hrest : p.dropWhile (!paramEnd ·) with
  | nil =>
    have hp := dropWhile_none hrest
    have hplain := ParamState.run_plain fun c hc => ParamState.isSep_of_paramEnd (hp c hc)
    rw [hplain] at hat ⊢
    rw [run_value hp] at hstate ⊢
    rw [takeWhile_append_of_pos (by simpa using hp), ← append_assoc, ← append_assoc, nil_append]
    exact h.leaking u (acc ++ p) hat hstate fun c hc => (mem_append.mp hc).elim (hacc c) (hp c)
  | cons c rest =>
    obtain ⟨hp, hc, hbefore⟩ := takeWhile_dropWhile hrest
    generalize p.takeWhile (!paramEnd ·) = v at hp hbefore
    subst hp
    have hplain := ParamState.run_plain fun c hc => ParamState.isSep_of_paramEnd (hbefore c hc)
    have hfirst : (plain.run (c :: rest)).1 = c :: ((plain.step c).2.run rest).1 := rfl
    rw [run_append .value, run_value hbefore, run_value_end hc] at hstate ⊢
    rw [run_append plain v, hplain] at hat ⊢
    have halong := h.along u (by rw [hstate]; exact hat)
    rw [hstate] at halong
    have htake : (v ++ c :: rest ++ todo.flatten).takeWhile (!paramEnd ·) = v := by
      rw [append_assoc, takeWhile_append_of_pos (by simpa using hbefore), cons_append,
        takeWhile_cons_of_neg (by simp [hc]), append_nil]
    rw [htake, ← halong]
    have hnot : ∀ {l : Bytes}, (∀ x ∈ l, paramEnd x = false) → c ∉ l := fun hl hmem => by cases hc.symm.trans (hl c hmem)
    dsimp only
    rw [hfirst, nil_append]
    constructor
    · intro heq
      obtain ⟨hmask, hsame⟩ := append_cons_inj_left (a := acc ++ v) (c := mask)
        (hnot fun x hx => (mem_append.mp hx).elim (hacc x) (hbefore x)) (hnot paramEnd_mask) (by simpa using heq)
      exact ⟨hmask, append_cancel_left hsame⟩
    · rintro ⟨hmask, hsame⟩
      rw [hsame, ← hmask]
      simp

/-- Wherever the text is cut, only leaks make a difference. -/
theorem exact_all (done : Bytes) (todo : List Bytes) : Exact done todo := by
  induction todo generalizing done with
  | nil =>
    refine ⟨fun u h => iff_of_true ?_ not_leaksFrom_nil, fun u acc h _ _ => ?_⟩
    · generalize (plain.run done).2 = σ at h
      cases h with
      | value => simp [run, close, ParamState.out, ParamState.run, ParamState.close]
      | key sep name => rfl
      | lost hlost | full sep hlen hlost =>
        cases σ with
        | value => exact hlost.elim
        | plain | key name => rfl
    · have hclose : u.close = [] := by cases h <;> rfl
      simp [run, hclose, ParamState.out, ParamState.run, ParamState.close, not_leaksFrom_nil]
  | cons p todo ih =>
    have ih := ih (done ++ p)
    have hrun : ∀ {u}, (run u (p :: todo)).flatten = (u.write p).1.flatten ++ ((u.write p).2.run todo).flatten :=
      flatten_append
    refine ⟨fun u h => ?_, fun u acc h hdone hacc => ?_⟩
    · generalize hσ : (plain.run done).2 = σ at h
      rw [hrun, flatten_cons, leaksFrom_cons]
      by_cases hgood : ∀ name t, σ = .key name → name.length = 20 → Sensitive name → p ≠ 61 :: t
      · obtain ⟨hout, hat⟩ := write_spec (h.next hgood)
        have hstate : (plain.run (done ++ p)).2 = (σ.run p).2 := by rw [run_append, hσ]
        rw [hout, ParamState.out_append, append_cancel_left_eq, ← hstate, ih.along _ (by rw [hstate]; exact hat)]
        refine not_congr ⟨.inr, ?_⟩
        rintro (hleak | hleak)
        · obtain ⟨more, hmore⟩ := hleak.rest
          cases p with
          | nil => exact ⟨[], todo, rfl, by simpa using hleak⟩
          | cons c t =>
            obtain ⟨rfl, -⟩ := List.cons.inj hmore
            obtain ⟨⟨name, hname, hlen, hsens⟩, -⟩ := leaksAt_iff.mp (hmore ▸ hleak)
            exact absurd rfl (hgood name t (hσ.symm.trans hname) hlen hsens)
        · exact hleak
      · -- The write ended between the longest key and its `=`: the value is passed on.
        push Not at hgood
        obtain ⟨name, t, rfl, hlen, hsens, rfl⟩ := hgood
        have hat : At (61 :: t) u .plain := by
          cases h with
          | lost hlost =>
            have := hlost.2 nofun
            simp at this
            omega
          | key sep name => exact .full sep hlen trivial
          | full sep hlen' hlost => exact .full sep hlen' trivial
        obtain ⟨hout, hat⟩ := write_spec hat
        have hvalue : (plain.run (done ++ [61])).2 = .value := by
          rw [run_append, hσ]
          simp [ParamState.run, ParamState.step, isSep, hsens]
        have hkey : (ParamState.key name).out (61 :: t ++ todo.flatten) =
            61 :: ParamState.value.out (t ++ todo.flatten) := by
          simp [ParamState.out, ParamState.run, ParamState.step, isSep, hsens]
        rw [hout, hkey, cons_append, leaksAt_iff, and_iff_right ⟨name, hσ, hlen, hsens⟩, not_or, not_not]
        have hsplit : done ++ 61 :: t = done ++ [61] ++ t := by simp
        rw [hsplit] at ih ⊢
        have hleak := ih.leak [] hat hvalue nofun
        rw [nil_append, nil_append] at hleak
        rw [← hleak]
        exact cons_inj_right 61
    · obtain ⟨hout, hat⟩ := write_spec (p := p) (h.next nofun)
      rw [hrun, hout, flatten_cons, leaksFrom_cons, ih.leak _ hat hdone hacc]
      refine and_congr_right fun _ => not_congr ⟨.inr, ?_⟩
      rintro (hleak | hleak)
      · obtain ⟨more, hmore⟩ := hleak.rest
        obtain ⟨⟨name, hname, -⟩, -⟩ := leaksAt_iff.mp (hmore ▸ hleak)
        cases hdone.symm.trans hname
      · exact hleak

theorem run_eq_iff (writes : List Bytes) : (run {} writes).flatten = plain.out writes.flatten ↔ ¬ Leaks writes :=
  (exact_all [] writes).along {} (.lost trivial)

theorem not_leaks_singleton (p : Bytes) : ¬ Leaks [p] := by
  rintro ⟨before, after, heq, text, sep, key, more, hdone, -, -, hrest, -⟩
  rcases append_eq_singleton_iff.mp heq.symm with ⟨rfl, -⟩ | ⟨-, rfl⟩
  · simp at hdone
  · nomatch hrest

/-- What the filter passes on is what it would pass on of the text in one write, if and only if no write ends between
the longest key and its `=`, but for a value that is the mask itself. Then it does not depend on where the writes end;
and it is what it would be if the value of a sensitive parameter were not there. -/
theorem params_masked (writes : List Bytes) :
    ((run {} writes).flatten = (run {} [writes.flatten]).flatten ↔ ¬ Leaks writes) ∧
    ∀ writes', ¬ Leaks writes → ¬ Leaks writes' →
      (writes.flatten = writes'.flatten → (run {} writes).flatten = (run {} writes').flatten) ∧
      ∀ text sep key value rest, isSep sep = true → (∀ c ∈ key, endsKey c = false) → Sensitive key →
        (∀ c ∈ value, paramEnd c = false) → writes.flatten = text ++ sep :: key ++ 61 :: value ++ rest →
        writes'.flatten = text ++ sep :: key ++ 61 :: rest → (run {} writes).flatten = (run {} writes').flatten := by
  refine ⟨?_, fun writes' h h' => ⟨fun hsame => ?_, ?_⟩⟩
  · rw [(run_eq_iff [writes.flatten]).mpr (not_leaks_singleton _), flatten_singleton]
    exact run_eq_iff writes
  · rw [(run_eq_iff writes).mpr h, (run_eq_iff writes').mpr h', hsame]
  intro text sep key value rest hsep hkey hsens hvalue hwith hwithout
  have hat : (plain.run (text ++ sep :: key ++ [61])).2 = .value := by
    rw [run_append, run_append, ParamState.run, ParamState.step_sep hsep, run_key hkey]
    simp [ParamState.run, ParamState.step, hsens, isSep]
  have hwith : writes.flatten = (text ++ sep :: key ++ [61]) ++ (value ++ rest) := by simp [hwith]
  have hwithout : writes'.flatten = (text ++ sep :: key ++ [61]) ++ rest := by simp [hwithout]
  have hskip : ParamState.value.out (value ++ rest) = ParamState.value.out rest := by
    rw [ParamState.out_append, run_value hvalue]
    rfl
  rw [(run_eq_iff writes).mpr h, (run_eq_iff writes').mpr h', hwith, hwithout, ParamState.out_append,
    ParamState.out_append plain _ rest, hat, hskip]

/-- A parameter's value and the same text without it. -/
theorem params_masked_rss :
    (run {} [ascii "?rss_token=a b"]).flatten = (run {} [ascii "?rss_token= b"]).flatten := by
  exact ((params_masked _).2 _ (not_leaks_singleton _) (not_leaks_singleton _)).2 [] 63 (ascii "rss_token") [97]
    (ascii " b") rfl (by decide +kernel) (by decide +kernel) (by decide +kernel) rfl rfl

/-- Cut before its `=`, the value of the parameter with the longest key is passed on. -/
theorem security_token_leaks :
    (run {} [ascii "?x-amz-security-token=s"]).flatten = ascii "?x-amz-security-token=[MASKED]" ∧
      (run {} [ascii "?x-amz-security-token", ascii "=s"]).flatten = ascii "?x-amz-security-token=s" := by
  decide +kernel

end UrlParams

end Virtkit.Mask
