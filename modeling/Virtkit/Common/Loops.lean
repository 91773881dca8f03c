import Mathlib.Data.List.Basic

/-!
# Fallible functions and their loops

What it takes for a sequence of fallible steps, or a check before one, to succeed. A loop goes from a position
over some length in pieces: each turn handles a piece that starts where the last ended. The rule for such a
loop: where each turn takes what holds at its start to what holds at its end, the loop succeeds and takes the
one to the other. And the same for a loop over a list.
-/

namespace Virtkit.Common

universe u v

variable {E : Type u} {A B : Type v}

theorem ok_bind {a : A} {f : A → Except E B} : (Except.ok a >>= f) = f a := rfl

theorem bind_eq_ok {x : Except E A} {f : A → Except E B} {b : B} :
    (x >>= f) = .ok b ↔ ∃ a, x = .ok a ∧ f a = .ok b := by
  cases x with
  | error e => exact ⟨nofun, fun ⟨_, h, _⟩ => (nomatch h)⟩
  | ok a => exact ⟨fun h => ⟨a, rfl, h⟩, fun ⟨_, ha, h⟩ => Except.ok.inj ha ▸ h⟩

theorem check_eq_ok {c : Prop} [Decidable c] {e : E} {x : Except E A} {a : A} :
    (if c then .error e else x) = .ok a ↔ ¬c ∧ x = .ok a := by
  by_cases hc : c <;> simp [hc]

theorem fst_of_ok {a a' : A} {b b' : B} (h : (Except.ok (a, b) : Except E (A × B)) = .ok (a', b')) : a = a' :=
  (Prod.mk.inj (Except.ok.inj h)).1

theorem map_const_eq_ok {x : Except E A} {b b' : B} (h : x.map (fun _ => b) = .ok b') : b = b' := by
  cases x with
  | error e => exact nomatch h
  | ok a => exact Except.ok.inj h

theorem elim_eq_ok {o : Option A} {e : E} {a : A} : o.elim (.error e) Except.ok = .ok a ↔ o = some a := by
  cases o with
  | none => exact ⟨nofun, nofun⟩
  | some b => exact ⟨fun h => Except.ok.inj h ▸ rfl, fun h => Option.some.inj h ▸ rfl⟩

theorem exists_ok_of_any {x : Except E A} {p : A → Bool} (h : x.toOption.any p = true) :
    ∃ a, x = .ok a ∧ p a = true := by
  cases x with
  | error e => exact nomatch h
  | ok a => exact ⟨a, rfl, h⟩

open List

variable {S : Type v}

/-- Loop from a position over a length, each piece of a size that the position and the length left give.
The fuel is at least the number of turns. -/
def loopPieces (size : ℕ → ℕ → ℕ) (body : S → ℕ → ℕ → Except E S) : ℕ → S → ℕ → ℕ → Except E S
  | 0, s, _, _ => .ok s
  | fuel + 1, s, pos, n =>
    if n = 0 then .ok s
    else body s pos (size pos n) >>= fun s' => loopPieces size body fuel s' (pos + size pos n) (n - size pos n)

variable {size : ℕ → ℕ → ℕ}

/-- A loop over pieces keeps what each piece keeps, and ends. -/
theorem loopPieces_spec {body : S → ℕ → ℕ → Except E S} {stop : ℕ} (Inv : ℕ → S → Prop)
    (hsize : ∀ pos n, 0 < n → pos + n = stop → 0 < size pos n ∧ size pos n ≤ n)
    (hbody : ∀ pos n s, 0 < n → pos + n = stop → Inv pos s →
      ∃ s', body s pos (size pos n) = .ok s' ∧ Inv (pos + size pos n) s') {fuel : ℕ} {s : S}
    {pos n : ℕ} (hfuel : n ≤ fuel) (hstop : pos + n = stop) (h : Inv pos s) :
    ∃ s', loopPieces size body fuel s pos n = .ok s' ∧ Inv stop s' := by
  induction fuel generalizing s pos n with
  | zero =>
    obtain rfl : n = 0 := by omega
    exact ⟨s, rfl, hstop ▸ h⟩
  | succ fuel ih =>
    rw [loopPieces]
    split_ifs with hn
    · subst hn
      exact ⟨s, rfl, hstop ▸ h⟩
    · obtain ⟨hpos, hle⟩ := hsize pos n (by omega) hstop
      obtain ⟨s₁, hs₁, hinv₁⟩ := hbody pos n s (by omega) hstop h
      have hleft : n - size pos n ≤ fuel := by omega
      obtain ⟨s₂, hs₂, hinv₂⟩ := ih hleft (by omega) hinv₁
      exact ⟨s₂, bind_eq_ok.mpr ⟨s₁, hs₁, hs₂⟩, hinv₂⟩

variable {A B : Type v}

theorem mapM_congr {f g : A → Except E B} {l : List A} (h : ∀ a ∈ l, f a = g a) : l.mapM f = l.mapM g := by
  induction l with
  | nil => rfl
  | cons a l ih => rw [mapM_cons, mapM_cons, h a mem_cons_self, ih fun b hb => h b (mem_cons_of_mem a hb)]

theorem getElem?_of_mapM {f : A → Except E B} {l : List A} {r : List B} (h : l.mapM f = .ok r)
    {i : ℕ} {a : A} (hi : l[i]? = some a) : ∃ b, r[i]? = some b ∧ f a = .ok b := by
  induction l generalizing r i with
  | nil => exact nomatch hi
  | cons a' l ih =>
    rw [mapM_cons] at h
    obtain ⟨b, hb, h⟩ := bind_eq_ok.mp h
    obtain ⟨rest, hrest, h⟩ := bind_eq_ok.mp h
    obtain rfl := Except.ok.inj h
    cases i with
    | zero =>
      cases hi
      exact ⟨b, rfl, hb⟩
    | succ i => exact ih hrest hi

theorem mapM_range_add (f : ℕ → Except E B) (m n : ℕ) :
    (List.range (m + n)).mapM f = (List.range m).mapM f >>= fun first =>
      (List.range n).mapM (fun i => f (m + i)) >>= fun rest => .ok (first ++ rest) := by
  rw [range_add, mapM_append, mapM_map]
  rfl

/-- A range read piece by piece is read item by item. -/
theorem loopPieces_mapM {piece : ℕ → ℕ → Except E (List B)} {f : ℕ → Except E B} {off stop : ℕ}
    (hsize : ∀ pos m, 0 < m → pos + m = stop → 0 < size pos m ∧ size pos m ≤ m)
    (hpiece : ∀ pos m, off ≤ pos → 0 < m → pos + m = stop →
      piece pos (size pos m) = (List.range (size pos m)).mapM fun i => f (pos + i)) {fuel pos n : ℕ}
    {acc : List B} (hfuel : n ≤ fuel) (hoff : off ≤ pos) (hstop : pos + n = stop) :
    loopPieces size (fun acc pos m => piece pos m >>= fun bytes => .ok (acc ++ bytes)) fuel acc pos n =
      (List.range n).mapM (fun i => f (pos + i)) >>= fun bytes => .ok (acc ++ bytes) := by
  have hnone : ∀ pos, (List.range 0).mapM (fun i => f (pos + i)) = .ok [] := fun _ => rfl
  induction fuel generalizing acc pos n with
  | zero =>
    obtain rfl : n = 0 := by omega
    rw [hnone, ok_bind, append_nil]
    rfl
  | succ fuel ih =>
    rw [loopPieces]
    split_ifs with hn
    · subst hn
      rw [hnone, ok_bind, append_nil]
    · obtain ⟨hpos, hle⟩ := hsize pos n (by omega) hstop
      obtain ⟨rest, hrest⟩ := Nat.exists_eq_add_of_le hle
      have hleft : n - size pos n = rest := by omega
      rw [hpiece pos n hoff (by omega) hstop, hleft]
      generalize hk : size pos n = k at *
      subst hrest
      rw [mapM_range_add, bind_assoc, bind_assoc]
      refine bind_congr fun first => ?_
      rw [ok_bind, ih (by omega) (by omega) (by omega), bind_assoc]
      simp only [Nat.add_assoc, ok_bind, append_assoc]

theorem loopPieces_read {piece : ℕ → ℕ → Except E (List B)} {f : ℕ → B} {off n : ℕ}
    (hsize : ∀ pos m, 0 < m → pos + m = off + n → 0 < size pos m ∧ size pos m ≤ m)
    (hpiece : ∀ pos m, off ≤ pos → 0 < m → pos + m = off + n →
      piece pos (size pos m) = .ok ((List.range (size pos m)).map fun i => f (pos + i))) :
    loopPieces size (fun acc pos m => piece pos m >>= fun bytes => .ok (acc ++ bytes)) n [] off n =
      .ok ((List.range n).map fun i => f (off + i)) := by
  have hpure : ∀ pos n, (List.range n).mapM (fun i => (Except.ok (f (pos + i)) : Except E B)) =
      .ok ((List.range n).map fun i => f (pos + i)) := fun _ _ => mapM_pure
  refine (loopPieces_mapM (f := fun i => .ok (f i)) hsize (fun pos m hoff hm hstop => ?_) (Nat.le_refl n)
    (Nat.le_refl off) rfl).trans ?_
  · rw [hpiece pos m hoff hm hstop, hpure]
  · rw [hpure, ok_bind, nil_append]

variable {body : S → A → Except E S}

/-- A loop whose body succeeds and keeps an invariant does so as a whole. -/
theorem foldlM_spec (Inv : List A → S → Prop)
    (hbody : ∀ done a s, Inv done s → ∃ s', body s a = .ok s' ∧ Inv (done ++ [a]) s')
    {done todo : List A} {s : S} (h : Inv done s) : ∃ s', todo.foldlM body s = .ok s' ∧ Inv (done ++ todo) s' := by
  induction todo generalizing done s with
  | nil => exact ⟨s, rfl, by rwa [append_nil]⟩
  | cons a todo ih =>
    obtain ⟨s₁, hs₁, hinv₁⟩ := hbody done a s h
    obtain ⟨s₂, hs₂, hinv₂⟩ := ih hinv₁
    refine ⟨s₂, ?_, by simpa using hinv₂⟩
    rw [foldlM_cons]
    exact bind_eq_ok.mpr ⟨s₁, hs₁, hs₂⟩

theorem foldlM_isOk {todo : List A} (hbody : ∀ a ∈ todo, ∀ s, ∃ s', body s a = .ok s') (s : S) :
    ∃ s', todo.foldlM body s = .ok s' := by
  induction todo generalizing s with
  | nil => exact ⟨s, rfl⟩
  | cons a todo ih =>
    obtain ⟨s₁, hs₁⟩ := hbody a mem_cons_self s
    obtain ⟨s₂, hs₂⟩ := ih (fun b hb => hbody b (mem_cons_of_mem a hb)) s₁
    rw [foldlM_cons]
    exact ⟨s₂, bind_eq_ok.mpr ⟨s₁, hs₁, hs₂⟩⟩

theorem foldlM_of_ok (Inv : List A → S → Prop)
    (hbody : ∀ done a s s', Inv done s → body s a = .ok s' → Inv (done ++ [a]) s')
    {done todo : List A} {s s' : S} (h : Inv done s) (hok : todo.foldlM body s = .ok s') : Inv (done ++ todo) s' := by
  induction todo generalizing done s with
  | nil =>
    rw [append_nil, ← Except.ok.inj hok]
    exact h
  | cons a todo ih =>
    rw [foldlM_cons] at hok
    obtain ⟨s₁, hs₁, hok⟩ := bind_eq_ok.mp hok
    have hrest := ih (hbody done a s s₁ h hs₁) hok
    rwa [append_assoc, singleton_append] at hrest

end Virtkit.Common
