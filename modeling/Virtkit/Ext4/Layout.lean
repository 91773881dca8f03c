import Mathlib.Algebra.BigOperators.Group.List.Basic
import Mathlib.Order.Bounds.Defs
import Mathlib.Tactic.Ring
import Virtkit.Common.Saturating

/-!
# The geometry of an ext4 image

The number of block groups depends on the blocks of metadata, which depend on the number of groups: the planning
loop goes from one group count to the one it needs until they agree. Inode tables are rounded up to whole blocks in
each group, so a group more can need fewer blocks, and then the loop may go back and forth. Whether it does is told by
the least count whose blocks fit it: the loop returns if and only if this count needs all of its groups.
-/

namespace Virtkit.Ext4

open Virtkit.Common List

def block : ℕ := 4096

def inodesPerBlock : ℕ := 16

def blocksPerGroup : ℕ := 32768

def roundUp (v unit : ℕ) : ℕ := divCeil v unit * unit

/-- A positive number is a power: divided by the base while it is a multiple, it comes to one. -/
def isPow (base : ℕ) : ℕ → ℕ → Bool
  | 0, n => n == 1
  | fuel + 1, n => if n % base = 0 then isPow base fuel (n / base) else n == 1

/-- The groups with a copy of the superblock and the descriptors. -/
def sparseSuper (g : ℕ) : Bool := g == 0 || g == 1 || isPow 3 g g || isPow 5 g g || isPow 7 g g

/-- The geometry of each group: its inodes, the blocks of its inode table, and the blocks of the descriptor table. -/
structure Layout where
  groups : ℕ
  ipg : ℕ
  itb : ℕ
  gdtBlocks : ℕ
  deriving DecidableEq

namespace Layout

/-- The blocks of a group before its bitmaps. -/
def metaOff (l : Layout) (g : ℕ) : ℕ := if sparseSuper g then 1 + l.gdtBlocks else 0

/-- The blocks of a group's metadata. -/
def groupMetaCount (l : Layout) (g : ℕ) : ℕ := l.metaOff g + 2 + l.itb

def metaBlocks (l : Layout) : ℕ := ((List.range l.groups).map l.groupMetaCount).sum

end Layout

/-- The geometry with a number of groups. -/
def layoutOf (wantInodes groups : ℕ) : Layout :=
  let ipg := min (roundUp (max (divCeil wantInodes groups) inodesPerBlock) inodesPerBlock) blocksPerGroup
  ⟨groups, ipg, ipg / inodesPerBlock, roundUp (groups * 32) block / block⟩

/-- The blocks asked for besides metadata. -/
def payload (dataBlocks extraFree : ℕ) : ℕ := dataBlocks + max (dataBlocks / 16) 512 + extraFree

/-- The groups that the blocks of a geometry need. -/
def newGroups (dataBlocks wantInodes extraFree groups : ℕ) : ℕ :=
  max (divCeil ((layoutOf wantInodes groups).metaBlocks + payload dataBlocks extraFree) blocksPerGroup) 1

/-- The planning loop: the geometry, its blocks and its inodes. -/
def planFrom (dataBlocks wantInodes extraFree : ℕ) : ℕ → ℕ → Option (Layout × ℕ × ℕ)
  | 0, _ => none
  | fuel + 1, groups =>
    let layout := layoutOf wantInodes groups
    let new := newGroups dataBlocks wantInodes extraFree groups
    if new = groups then some (layout, groups * blocksPerGroup, layout.ipg * groups)
    else planFrom dataBlocks wantInodes extraFree fuel new

/-- Plan the geometry, in some number of turns of the loop. -/
def planLayout (fuel dataBlocks wantInodes extraFree : ℕ) : Option (Layout × ℕ × ℕ) :=
  planFrom dataBlocks wantInodes extraFree fuel 1

/-- How many groups have a copy of the superblock. -/
def copies (groups : ℕ) : ℕ := (List.range groups).countP sparseSuper

/-- The blocks of a geometry and of what is asked for. -/
def blocks (d w e groups : ℕ) : ℕ := (layoutOf w groups).metaBlocks + payload d e

section Blocks

variable {d w e g x y : ℕ}

theorem divCeil_le_iff {a b k : ℕ} (hb : 0 < b) : divCeil a b ≤ k ↔ a ≤ k * b := by
  unfold divCeil
  rw [← Nat.lt_succ_iff, Nat.div_lt_iff_lt_mul hb, Nat.succ_mul]
  omega

/-- A count of groups is enough if the blocks fit it. -/
theorem newGroups_le_iff {k : ℕ} (hk : 0 < k) : newGroups d w e g ≤ k ↔ blocks d w e g ≤ k * blocksPerGroup := by
  rw [newGroups, max_le_iff, divCeil_le_iff (by decide)]
  exact and_iff_left hk

theorem newGroups_pos (d w e g : ℕ) : 0 < newGroups d w e g :=
  Nat.lt_of_lt_of_le Nat.one_pos (le_max_right _ _)

/-- A count that needs itself has a block in its last group. -/
theorem lt_blocks_of_fixed (h : newGroups d w e g = g) : (g - 1) * blocksPerGroup < blocks d w e g := by
  by_contra hle
  rcases Nat.lt_or_ge 1 g with hone | hone
  · have := (newGroups_le_iff (by omega)).mpr (not_lt.mp hle)
    omega
  · have hempty : blocks d w e g ≤ 0 := by simpa [Nat.sub_eq_zero_of_le hone] using hle
    unfold blocks payload at hempty
    omega

/-- The blocks of metadata: the copies of the superblock and of the descriptors, the bitmaps and the inode tables. -/
theorem metaBlocks_eq (l : Layout) :
    l.metaBlocks = copies l.groups * (1 + l.gdtBlocks) + l.groups * 2 + l.groups * l.itb := by
  have hsum : ∀ gs : List ℕ, (gs.map l.groupMetaCount).sum =
      gs.countP sparseSuper * (1 + l.gdtBlocks) + gs.length * 2 + gs.length * l.itb := by
    intro gs
    induction gs with
    | nil => simp
    | cons g gs ih =>
      rw [map_cons, sum_cons, ih, countP_cons, length_cons, Layout.groupMetaCount, Layout.metaOff]
      split_ifs <;> ring
  rw [Layout.metaBlocks, hsum, length_range]
  rfl

theorem copies_succ (g : ℕ) : copies (g + 1) = copies g + if sparseSuper g then 1 else 0 := by
  rw [copies, copies, range_succ, countP_append, countP_singleton]

/-- A power above its base is a multiple of the base's square. -/
theorem isPow_cases {base fuel n : ℕ} (h : isPow base (fuel + 2) n = true) : n = 1 ∨ n / base = 1 ∧ n % base = 0 ∨
    n / base % base = 0 ∧ n % base = 0 := by
  unfold isPow at h
  split_ifs at h with hn
  · unfold isPow at h
    split_ifs at h with hn'
    · exact .inr (.inr ⟨hn', hn⟩)
    · exact .inr (.inl ⟨by simpa using h, hn⟩)
  · exact .inl (by simpa using h)

/-- Few groups have a copy: multiples of 9, 25 and 49, from 8 groups on. -/
theorem copies_le (g : ℕ) : copies (g + 8) ≤ (g + 16) / 9 + (g + 32) / 25 + (g + 56) / 49 + 4 := by
  induction g with
  | zero => decide
  | succ g ih =>
    rw [Nat.add_right_comm, copies_succ]
    have h₉ : (g + 16) / 9 ≤ (g + 1 + 16) / 9 := Nat.div_le_div_right (by omega)
    have h₂₅ : (g + 32) / 25 ≤ (g + 1 + 32) / 25 := Nat.div_le_div_right (by omega)
    have h₄₉ : (g + 56) / 49 ≤ (g + 1 + 56) / 49 := Nat.div_le_div_right (by omega)
    split_ifs with hsparse
    · have hcases : ∀ base, isPow base (g + 8) (g + 8) = true → g + 8 = 1 ∨ (g + 8) / base = 1 ∧ (g + 8) % base = 0 ∨
          (g + 8) / base % base = 0 ∧ (g + 8) % base = 0 := fun base => isPow_cases
      simp only [sparseSuper, Bool.or_eq_true, beq_iff_eq] at hsparse
      rcases hsparse with (((h | h) | h) | h) | h
      · omega
      · omega
      all_goals
        have := hcases _ h
        omega
    · omega

/-- The blocks of an inode table are the least that hold a group's share of the inodes, up to 2048. -/
theorem itb_le_iff {k : ℕ} (hg : 0 < g) (hk : 0 < k) (hk' : k < 2048) : (layoutOf w g).itb ≤ k ↔ w ≤ k * 16 * g := by
  rw [← divCeil_le_iff hg]
  simp only [layoutOf, roundUp, inodesPerBlock, blocksPerGroup]
  rw [divCeil]
  generalize divCeil w g = share
  omega

theorem itb_bounds (w g : ℕ) : 0 < (layoutOf w g).itb ∧ (layoutOf w g).itb ≤ 2048 := by
  simp only [layoutOf, roundUp, inodesPerBlock, blocksPerGroup]
  rw [divCeil]
  generalize divCeil w g = share
  omega

theorem itb_anti (hx : 0 < x) (hxy : x ≤ y) : (layoutOf w y).itb ≤ (layoutOf w x).itb := by
  obtain ⟨hpos, hle⟩ := itb_bounds w x
  rcases hle.lt_or_eq with hlt | heq
  · have hfits := (itb_le_iff hx hpos hlt).mp le_rfl
    exact (itb_le_iff (hx.trans_le hxy) hpos hlt).mpr (hfits.trans (Nat.mul_le_mul_left _ hxy))
  · exact heq ▸ (itb_bounds w y).2

theorem blocks_eq (d w e g : ℕ) : blocks d w e g =
    copies g * (1 + (layoutOf w g).gdtBlocks) + g * 2 + g * (layoutOf w g).itb + payload d e := by
  rw [blocks, metaBlocks_eq]
  rfl

theorem copied_mono (w : ℕ) (hxy : x ≤ y) : copies x * (1 + (layoutOf w x).gdtBlocks) ≤
    copies y * (1 + (layoutOf w y).gdtBlocks) := by
  refine Nat.mul_le_mul ?_ ?_
  · induction y, hxy using Nat.le_induction with
    | base => exact le_rfl
    | succ y _ ih => exact ih.trans (copies_succ y ▸ Nat.le_add_right _ _)
  · simp only [layoutOf, roundUp, divCeil, block]
    omega

/-- A group more needs no more than its own blocks more. -/
theorem blocks_succ_le (hg : 0 < g) (hsmall : g ≤ 131080) : blocks d w e (g + 1) ≤ blocks d w e g + blocksPerGroup := by
  rw [blocks_eq, blocks_eq]
  have htable : (g + 1) * (layoutOf w (g + 1)).itb ≤ g * (layoutOf w g).itb + 2048 := by
    refine (Nat.mul_le_mul_left (g + 1) (itb_anti hg g.le_succ)).trans ?_
    rw [Nat.succ_mul]
    exact Nat.add_le_add_left (itb_bounds w g).2 _
  have hcopies : copies g ≤ 22600 := by
    rcases Nat.lt_or_ge g 8 with h | h
    · have := countP_le_length (p := sparseSuper) (l := List.range g)
      rw [length_range] at this
      change copies g ≤ g at this
      omega
    · have := copies_le (g - 8)
      rw [Nat.sub_add_cancel h] at this
      omega
  have hnext : copies (g + 1) ≤ copies g + 1 := by
    rw [copies_succ]
    split_ifs <;> omega
  have hgdt : (layoutOf w (g + 1)).gdtBlocks ≤ (layoutOf w g).gdtBlocks + 1 ∧ (layoutOf w g).gdtBlocks ≤ 1025 := by
    simp only [layoutOf, roundUp, divCeil, block]
    omega
  have hcopied := Nat.mul_le_mul hnext (Nat.add_le_add_left hgdt.1 1)
  rw [← Nat.add_assoc 1, Nat.mul_succ, Nat.succ_mul] at hcopied
  unfold blocksPerGroup
  omega

/-- More groups need at most as many blocks fewer as there were groups: what the rounding of each table costs. -/
theorem blocks_le_add (hx : 0 < x) (hxy : x ≤ y) : blocks d w e x ≤ blocks d w e y + x := by
  rw [blocks_eq, blocks_eq]
  have hcopied := copied_mono w hxy
  have hlow : min (divCeil w 16) (y * 2048) ≤ y * (layoutOf w y).itb := by
    obtain ⟨hpos, hle⟩ := itb_bounds w y
    rcases hle.lt_or_eq with hlt | heq
    · refine (min_le_left _ _).trans ((divCeil_le_iff (by decide)).mpr ?_)
      have := (itb_le_iff (hx.trans_le hxy) hpos hlt).mp le_rfl
      rwa [Nat.mul_right_comm, Nat.mul_comm _ y] at this
    · rw [heq]
      exact min_le_right _ _
  have hhigh : x * (layoutOf w x).itb ≤ min (divCeil w 16) (x * 2048) + x := by
    obtain ⟨hpos, hle⟩ := itb_bounds w x
    obtain ⟨k, hk⟩ := Nat.exists_eq_add_one.mpr hpos
    rw [hk] at hle
    rw [hk, Nat.mul_succ]
    refine Nat.add_le_add_right (le_min ?_ (Nat.mul_le_mul_left x (by omega))) x
    rcases Nat.eq_zero_or_pos k with rfl | hk0
    · omega
    · have hover := mt (itb_le_iff (w := w) hx hk0 (by omega)).mpr (by omega)
      rw [Nat.mul_right_comm, Nat.mul_comm k x, ← divCeil_le_iff (by decide)] at hover
      omega
  have := Nat.mul_le_mul_right 2048 hxy
  omega

/-- Fewer groups with tables of the same size need no more blocks. -/
theorem blocks_mono_of_itb (hxy : x ≤ y) (hitb : (layoutOf w x).itb ≤ (layoutOf w y).itb) :
    blocks d w e x ≤ blocks d w e y := by
  rw [blocks_eq, blocks_eq]
  have := copied_mono w hxy
  have := Nat.mul_le_mul hxy hitb
  omega

end Blocks

/-!
## Where the loop goes

Below the least count that is enough the loop goes up, and from it on it does not. It comes a few groups past it at
most, and a few below it at most when it goes back.
-/

section Loop

variable {d w e least g x y : ℕ}

/-- The loop returns a count that needs itself, from a count on. -/
def Returns (d w e g : ℕ) : Prop :=
  ∃ turns groups, newGroups d w e groups = groups ∧ ∀ fuel, turns ≤ fuel → planFrom d w e fuel g =
    some (layoutOf w groups, groups * blocksPerGroup, (layoutOf w groups).ipg * groups)

/-- A count of groups that needs itself is returned. -/
theorem Returns.of_fixed (h : newGroups d w e g = g) : Returns d w e g := by
  refine ⟨1, g, h, fun fuel hfuel => ?_⟩
  obtain ⟨fuel, rfl⟩ := Nat.exists_eq_add_one.mpr hfuel
  exact if_pos h

theorem Returns.of_next (h : Returns d w e (newGroups d w e g)) : Returns d w e g := by
  by_cases hsame : newGroups d w e g = g
  · exact .of_fixed hsame
  · obtain ⟨turns, groups, hfixed, hreturns⟩ := h
    refine ⟨turns + 1, groups, hfixed, fun fuel hfuel => ?_⟩
    obtain ⟨fuel, rfl⟩ := Nat.exists_eq_add_one.mpr (Nat.zero_lt_of_lt hfuel)
    rw [planFrom, if_neg hsame]
    exact hreturns fuel (by omega)

/-- The least count of groups that is enough, of an image of fewer than 2³² blocks. -/
structure Enough (d w e least : ℕ) : Prop where
  isLeast : IsLeast {g | 0 < g ∧ newGroups d w e g ≤ g} least
  small : least * blocksPerGroup ≤ 2 ^ 32

namespace Enough

variable (h : Enough d w e least)
include h

theorem pos : 0 < least := h.isLeast.1.1

theorem le : least ≤ 131072 := by
  have := h.small
  unfold blocksPerGroup at this
  omega

theorem fits : blocks d w e least ≤ least * blocksPerGroup := (newGroups_le_iff h.pos).mp h.isLeast.1.2

theorem below_lt (hx : 0 < x) (hlt : x < least) : x < newGroups d w e x := by
  by_contra hle
  exact absurd (h.isLeast.2 ⟨hx, not_lt.mp hle⟩) (not_le.mpr hlt)

/-- Below the least count, no more than four groups too many are asked for. -/
theorem below_le (hx : 0 < x) (hlt : x < least) : newGroups d w e x ≤ least + 4 := by
  have := blocks_le_add (d := d) (w := w) (e := e) hx hlt.le
  have := h.fits
  have := h.le
  rw [newGroups_le_iff (by omega)]
  unfold blocksPerGroup at *
  omega

/-- From a count whose blocks fit fewer groups, all more groups have room for these too. -/
theorem blocks_le (spare : ℕ) (hfits : blocks d w e least + spare ≤ least * blocksPerGroup) (hy : least ≤ y)
    (hle : y ≤ least + 4) : blocks d w e y + spare ≤ y * blocksPerGroup := by
  have := h.le
  induction y, hy using Nat.le_induction with
  | base => exact hfits
  | succ y hy ih =>
    have := ih (by omega)
    have := blocks_succ_le (d := d) (w := w) (e := e) (h.pos.trans_le hy) (by omega)
    unfold blocksPerGroup at *
    omega

theorem above_le (hy : least ≤ y) (hle : y ≤ least + 4) : newGroups d w e y ≤ y :=
  (newGroups_le_iff (h.pos.trans_le hy)).mpr (h.blocks_le 0 h.fits hy hle)

/-- Where the least count does not need itself, no count does. -/
theorem not_fixed (hne : newGroups d w e least ≠ least) (hg : 0 < g) (hle : g ≤ least + 4) : newGroups d w e g ≠ g := by
  intro hfixed
  have hlt : newGroups d w e least < least := h.isLeast.1.2.lt_of_ne hne
  have hge : least ≤ g := h.isLeast.2 ⟨hg, hfixed.le⟩
  have hone := newGroups_pos d w e least
  have hspare : blocks d w e least + blocksPerGroup ≤ least * blocksPerGroup := by
    have := (newGroups_le_iff (d := d) (w := w) (e := e) (g := least) (k := least - 1) (by omega)).mp (by omega)
    unfold blocksPerGroup at *
    omega
  have hroom := h.blocks_le _ hspare hge hle
  have hle' : newGroups d w e g ≤ g - 1 := by
    rw [newGroups_le_iff (by omega)]
    unfold blocksPerGroup at *
    omega
  omega

/-- A loop that never meets a count that needs itself does not return. -/
theorem planFrom_eq_none (hne : newGroups d w e least ≠ least) (fuel : ℕ) (hg : 0 < g) (hle : g ≤ least + 4) :
    planFrom d w e fuel g = none := by
  induction fuel generalizing g with
  | zero => rfl
  | succ fuel ih =>
    rw [planFrom, if_neg (h.not_fixed hne hg hle)]
    refine ih (newGroups_pos d w e _) ?_
    rcases Nat.lt_or_ge g least with hlt | hge
    · exact h.below_le hg hlt
    · exact (h.above_le hge hle).trans hle

variable (hfixed : newGroups d w e least = least)
include hfixed

/-- The loop goes back a few groups below the least count at most. -/
theorem above_ge (hy : least ≤ y) : least ≤ newGroups d w e y + 4 := by
  have hlt := lt_blocks_of_fixed hfixed
  have hdrop := blocks_le_add (d := d) (w := w) (e := e) h.pos hy
  have hfits := (newGroups_le_iff (d := d) (w := w) (e := e) (g := y) (newGroups_pos d w e _)).mp le_rfl
  have := h.le
  unfold blocksPerGroup at *
  omega

/-- The loop does not jump past the least count from below it and back from above it. For each, the tables have to be
shorter by a block, and that is too much for so few groups. -/
theorem not_around (hx : 0 < x) (hlt : x < least) (hgt : least < y) (hnear : y ≤ x + 8)
    (hup : least < newGroups d w e x) : least ≤ newGroups d w e y := by
  by_contra hdown
  have hone := newGroups_pos d w e y
  have hover : least * blocksPerGroup < blocks d w e x := by
    rw [← not_le, ← newGroups_le_iff h.pos]
    exact not_le.mpr hup
  have hunder : blocks d w e y ≤ (least - 1) * blocksPerGroup := (newGroups_le_iff (by omega)).mp (by omega)
  have hfits := h.fits
  have hneeds := lt_blocks_of_fixed hfixed
  have hmany : 32768 < x := by
    have := blocks_le_add (d := d) (w := w) (e := e) hx (hlt.trans hgt).le
    unfold blocksPerGroup at *
    omega
  have hbefore : (layoutOf w least).itb < (layoutOf w x).itb := by
    by_contra hitb
    have := blocks_mono_of_itb (d := d) (e := e) hlt.le (not_lt.mp hitb)
    omega
  have hafter : (layoutOf w y).itb < (layoutOf w least).itb := by
    by_contra hitb
    have := blocks_mono_of_itb (d := d) (e := e) hgt.le (not_lt.mp hitb)
    omega
  have hpos := (itb_bounds w y).1
  have hmax := (itb_bounds w x).2
  generalize hc : (layoutOf w y).itb = c at *
  have hless := (itb_le_iff (h.pos.trans hgt) hpos (by omega)).mp hc.le
  have hmore := mt (itb_le_iff (w := w) (k := c + 1) hx (by omega) (by omega)).mpr (by omega)
  have hsplit : (c + 1) * 16 * x = c * 16 * x + 16 * x := by ring
  have hwide : c * 16 * y ≤ c * 16 * x + 128 * c := (Nat.mul_le_mul_left _ hnear).trans_eq (by ring)
  omega

omit hfixed

/-- From below the least count the loop goes up to it, or past it. -/
theorem climbs (low : ℕ) (hlow : 0 < low) (hpast : ∀ x, low ≤ x → x < least → least ≤ newGroups d w e x →
      Returns d w e (newGroups d w e x)) (hx : low ≤ x) (hlt : x < least) : Returns d w e x := by
  obtain ⟨n, hn⟩ : ∃ n, x + n = least := ⟨least - x, by omega⟩
  induction n using Nat.strong_induction_on generalizing x with
  | _ n ih =>
    refine .of_next ?_
    have hup := h.below_lt (hlow.trans_le hx) hlt
    rcases Nat.lt_or_ge (newGroups d w e x) least with hbelow | habove
    · exact ih (least - newGroups d w e x) (by omega) (by omega) hbelow (by omega)
    · exact hpast x hx hlt habove

/-- From above the least count the loop comes to a count that needs itself, or below it. -/
theorem descends (hback : ∀ y, least ≤ y → y ≤ least + 4 → newGroups d w e y < least →
    Returns d w e (newGroups d w e y)) (hy : least ≤ y) (hle : y ≤ least + 4) : Returns d w e y := by
  induction y using Nat.strong_induction_on with
  | _ y ih =>
    by_cases hsame : newGroups d w e y = y
    · exact .of_fixed hsame
    · have hdown : newGroups d w e y < y := (h.above_le hy hle).lt_of_ne hsame
      refine .of_next ?_
      rcases Nat.lt_or_ge (newGroups d w e y) least with hbelow | habove
      · exact hback y hy hle hbelow
      · exact ih _ hdown habove (hdown.le.trans hle)

include hfixed

theorem returns_above (hy : least ≤ y) (hle : y ≤ least + 4) : Returns d w e y := by
  by_cases hback : ∃ z, least ≤ z ∧ z ≤ least + 4 ∧ newGroups d w e z < least
  · -- The loop goes back below the least count, so it does not jump past it from there.
    obtain ⟨z, hz, hzle, hzdown⟩ := hback
    have hgt : least < z := hz.lt_of_ne fun heq => by
      rw [← heq, hfixed] at hzdown
      omega
    refine h.descends (fun y hy _ hdown => ?_) hy hle
    have hone := newGroups_pos d w e y
    refine h.climbs (max 1 (least - 4)) (by omega) (fun x hx hlt hge => ?_) (by
      have := h.above_ge hfixed hy
      omega) hdown
    rcases hge.lt_or_eq with hup | heq
    · exact absurd (h.not_around hfixed (by omega) hlt hgt (by omega) hup) (not_le.mpr hzdown)
    · exact heq ▸ .of_fixed hfixed
  · exact h.descends (fun y hy hle hdown => absurd ⟨y, hy, hle, hdown⟩ hback) hy hle

theorem returns : Returns d w e 1 := by
  rcases Nat.lt_or_eq_of_le h.pos with hone | hone
  · exact h.climbs 1 Nat.one_pos (fun x hx hlt hge => h.returns_above hfixed hge (h.below_le hx hlt)) le_rfl hone
  · subst hone
    exact .of_fixed hfixed

end Enough

end Loop

/-- The planning loop returns if and only if the least count of groups whose blocks fit it needs all of its groups:
then it comes to a count that needs itself, and else it goes on forever. -/
theorem planLayout_returns {dataBlocks wantInodes extraFree least : ℕ}
    (h : Enough dataBlocks wantInodes extraFree least) :
    (newGroups dataBlocks wantInodes extraFree least = least → ∃ turns groups,
      newGroups dataBlocks wantInodes extraFree groups = groups ∧ ∀ fuel, turns ≤ fuel →
        planLayout fuel dataBlocks wantInodes extraFree = some (layoutOf wantInodes groups, groups * blocksPerGroup,
          (layoutOf wantInodes groups).ipg * groups)) ∧
    (newGroups dataBlocks wantInodes extraFree least ≠ least → ∀ fuel,
      planLayout fuel dataBlocks wantInodes extraFree = none) :=
  ⟨h.returns, fun hne fuel => h.planFrom_eq_none hne fuel Nat.one_pos (by omega)⟩

/-- With 482 MiB of data and 81 inodes four groups are too few, and the loop comes to five. -/
theorem planLayout_returns_file : Enough 123343 81 0 5 ∧ ∃ turns groups, newGroups 123343 81 0 groups = groups ∧
    ∀ fuel, turns ≤ fuel → planLayout fuel 123343 81 0 =
      some (layoutOf 81 groups, groups * blocksPerGroup, (layoutOf 81 groups).ipg * groups) := by
  have hfive : newGroups 123343 81 0 5 = 5 := by decide +kernel
  have henough : Enough 123343 81 0 5 := by
    refine ⟨⟨⟨by decide, hfive.le⟩, ?_⟩, by decide⟩
    rintro groups ⟨hpos, hle⟩
    by_contra hlt
    have hfew : ∀ few ∈ [1, 2, 3, 4], few < newGroups 123343 81 0 few := by decide +kernel
    have := hfew groups (by simp; omega)
    omega
  exact ⟨henough, (planLayout_returns henough).1 hfive⟩

/-- With 482 MiB of data and 65 inodes the loop goes from four groups to five and back. -/
theorem planLayout_never_returns : (∀ fuel, planLayout fuel 123343 65 0 = none) ∧
    ∀ groups ∈ [1, 4, 5], (layoutOf 65 groups).metaBlocks + payload 123343 0 < 2 ^ 32 := by
  have hfour : newGroups 123343 65 0 4 = 5 := by decide +kernel
  have hfive : newGroups 123343 65 0 5 = 4 := by decide +kernel
  have hback : ∀ fuel, planFrom 123343 65 0 fuel 4 = none ∧ planFrom 123343 65 0 fuel 5 = none := by
    intro fuel
    induction fuel with
    | zero => exact ⟨rfl, rfl⟩
    | succ fuel ih => exact ⟨by simp [planFrom, hfour, ih.2], by simp [planFrom, hfive, ih.1]⟩
  have hone : newGroups 123343 65 0 1 = 4 := by decide +kernel
  refine ⟨fun fuel => ?_, by decide +kernel⟩
  cases fuel with
  | zero => rfl
  | succ fuel => simp [planLayout, planFrom, hone, (hback fuel).1]

end Virtkit.Ext4
