import Mathlib.Data.Char
import Mathlib.Data.List.Infix
import Mathlib.Data.List.Lex
import Mathlib.Data.List.Sort

/-!
# Patterns of paths

A pattern is matched segment by segment: within a segment `*` stands for any run of characters and `?`
for one, and a segment `**` for any run of segments. The test of whether a pattern could match something
beneath a directory stops where the directory does.
-/

namespace Virtkit.Build

open List Bool

/-- A segment of a path, or of a pattern. -/
abbrev Segment := List Char

/-- The last row of the table of a segment: past the pattern only the end matches. -/
def lastRow : Segment → List Bool
  | [] => [true]
  | _ :: s => false :: lastRow s

/-- The row of a pattern's character, from that of the next: whether the pattern from there on matches
the segment from each of its places on. -/
def wildcardRow (c : Char) : Segment → List Bool → List Bool
  | [], next => [c = '*' && next.headD false]
  | x :: s, next =>
    let row := wildcardRow c s next.tail
    (if c = '*' then next.headD false || row.headD false else if c = '?' then next.tail.headD false
      else x = c && next.tail.headD false) :: row

def wildcardMatch (pat s : Segment) : Bool := (pat.foldr (fun c next => wildcardRow c s next) (lastRow s)).headD false

/-- Whether the segments of a pattern match those of a path. -/
def segMatch : List Segment → List Segment → Bool
  | [], n => n.isEmpty
  | seg :: p, n =>
    if seg = ['*', '*'] then n.tails.any fun rest => segMatch p rest
    else
      match n with
      | [] => false
      | x :: n => wildcardMatch seg x && segMatch p n

/-- Whether a pattern could match something beneath a directory. -/
def canMatchUnder : List Segment → List Segment → Bool
  | [], _ => false
  | seg :: p, d =>
    if seg = ['*', '*'] then true
    else
      match d with
      | [] => true
      | x :: d => wildcardMatch seg x && canMatchUnder p d

def segments (text : List Char) : List Segment := text.splitOn '/'

def globMatch (pattern path : List Char) : Bool := segMatch (segments pattern) (segments path)

/-- What a pattern of one segment stands for. -/
inductive Glob : Segment → Segment → Prop where
  | nil : Glob [] []
  | skip {p s} : Glob p s → Glob ('*' :: p) s
  | take {p s} (x : Char) : Glob ('*' :: p) s → Glob ('*' :: p) (x :: s)
  | any {p s} (x : Char) : Glob p s → Glob ('?' :: p) (x :: s)
  | char {p s c} : c ≠ '*' → c ≠ '?' → Glob p s → Glob (c :: p) (c :: s)

/-- The rows of the table: an entry for each place of the segment. -/
def IsRow (p : Segment) : Segment → List Bool → Prop
  | [], row => ∃ b, row = [b] ∧ (b = true ↔ Glob p [])
  | x :: s, row => ∃ b rest, row = b :: rest ∧ (b = true ↔ Glob p (x :: s)) ∧ IsRow p s rest

theorem IsRow.headD {p s : Segment} {row : List Bool} (h : IsRow p s row) : row.headD false = true ↔ Glob p s := by
  cases s with
  | nil =>
    obtain ⟨b, rfl, hb⟩ := h
    exact hb
  | cons x s =>
    obtain ⟨b, rest, rfl, hb, -⟩ := h
    exact hb

theorem isRow_lastRow (s : Segment) : IsRow [] s (lastRow s) := by
  induction s with
  | nil => exact ⟨true, rfl, fun _ => .nil, fun _ => rfl⟩
  | cons x s ih => exact ⟨false, lastRow s, rfl, ⟨nofun, nofun⟩, ih⟩

/-- One row of the table from the row after it. -/
theorem isRow_wildcardRow {p : Segment} (c : Char) {s : Segment} {next : List Bool} (h : IsRow p s next) :
    IsRow (c :: p) s (wildcardRow c s next) := by
  induction s generalizing next with
  | nil =>
    refine ⟨_, rfl, ?_⟩
    rw [and_eq_true, decide_eq_true_eq, h.headD]
    constructor
    · rintro ⟨rfl, hp⟩
      exact .skip hp
    · intro hglob
      cases hglob with
      | skip hp => exact ⟨rfl, hp⟩
  | cons x s ih =>
    obtain ⟨b, rest, rfl, hb, hrest⟩ := h
    have hrow := ih hrest
    refine ⟨_, _, rfl, ?_, hrow⟩
    rw [headD_cons, tail_cons]
    by_cases hstar : c = '*'
    · subst hstar
      rw [if_pos rfl, or_eq_true, hb, hrow.headD]
      constructor
      · rintro (hp | hp)
        · exact .skip hp
        · exact .take x hp
      · intro hglob
        cases hglob with
        | skip hp => exact .inl hp
        | take _ hp => exact .inr hp
        | char hne _ _ => exact absurd rfl hne
    · rw [if_neg hstar]
      by_cases hany : c = '?'
      · subst hany
        rw [if_pos rfl, hrest.headD]
        constructor
        · exact fun hp => .any x hp
        · intro hglob
          cases hglob with
          | any _ hp => exact hp
          | char _ hne _ => exact absurd rfl hne
      · rw [if_neg hany, and_eq_true, decide_eq_true_eq, hrest.headD]
        constructor
        · rintro ⟨rfl, hp⟩
          exact .char hstar hany hp
        · intro hglob
          cases hglob with
          | skip _ | take _ _ => exact absurd rfl hstar
          | any _ _ => exact absurd rfl hany
          | char _ _ hp => exact ⟨rfl, hp⟩

theorem wildcardMatch_iff {pat s : Segment} : wildcardMatch pat s = true ↔ Glob pat s := by
  refine IsRow.headD ?_
  induction pat with
  | nil => exact isRow_lastRow s
  | cons c pat ih => exact isRow_wildcardRow c ih

/-- A pattern that matches below a directory may match under it. -/
theorem canMatchUnder_of_segMatch {p d e : List Segment} (he : e ≠ []) (h : segMatch p (d ++ e) = true) :
    canMatchUnder p d = true := by
  induction p generalizing d with
  | nil =>
    rw [segMatch, List.isEmpty_iff, List.append_eq_nil_iff] at h
    exact absurd h.2 he
  | cons seg p ih =>
    cases d with
    | nil => rw [canMatchUnder, ite_self]
    | cons x d =>
      rw [canMatchUnder]
      split_ifs with hspan
      · rfl
      · rw [List.cons_append, segMatch, if_neg hspan, and_eq_true] at h
        rw [and_eq_true]
        exact ⟨h.1, ih h.2⟩

/-- A pattern that is seen to reach below the context's root, whose path is one empty segment: it begins with `**`, or
with a segment of stars that is not its last. -/
def Open : List Segment → Prop
  | [] => False
  | seg :: p => seg = ['*', '*'] ∨ (∀ c ∈ seg, c = '*') ∧ p ≠ []

theorem glob_nil_iff {p : Segment} : Glob p [] ↔ ∀ c ∈ p, c = '*' := by
  induction p with
  | nil => exact ⟨fun _ => by simp, fun _ => .nil⟩
  | cons c p ih =>
    rw [forall_mem_cons, ← ih]
    constructor
    · intro h
      cases h with
      | skip hp => exact ⟨rfl, hp⟩
    · rintro ⟨rfl, hp⟩
      exact .skip hp

theorem canMatchUnder_root {p : List Segment} : canMatchUnder p [[]] = true ↔ Open p := by
  cases p with
  | nil => simp [canMatchUnder, Open]
  | cons seg p =>
    rw [canMatchUnder, Open]
    split_ifs with hstars
    · simp [hstars]
    · rw [and_eq_true, wildcardMatch_iff, glob_nil_iff, or_iff_right hstars]
      refine and_congr_right fun _ => ?_
      cases p with
      | nil => simp [canMatchUnder]
      | cons next p => simp [canMatchUnder]

theorem exists_glob (p : Segment) : ∃ s, Glob p s := by
  induction p with
  | nil => exact ⟨[], .nil⟩
  | cons c p ih =>
    obtain ⟨s, hs⟩ := ih
    by_cases hstar : c = '*'
    · exact ⟨s, hstar ▸ .skip hs⟩
    · by_cases hany : c = '?'
      · exact ⟨'x' :: s, hany ▸ .any 'x' hs⟩
      · exact ⟨c :: s, .char hstar hany hs⟩

theorem exists_segMatch (p : List Segment) : ∃ n, segMatch p n = true := by
  induction p with
  | nil => exact ⟨[], rfl⟩
  | cons seg p ih =>
    obtain ⟨n, hn⟩ := ih
    obtain ⟨x, hx⟩ := exists_glob seg
    refine ⟨x :: n, ?_⟩
    rw [segMatch]
    split_ifs
    · exact any_eq_true.mpr ⟨n, by simp, hn⟩
    · rw [wildcardMatch_iff.mpr hx, hn, Bool.and_self]

/-- The table of a segment decides what a pattern stands for; and the test by which a walk enters an
excluded directory says yes exactly if the pattern matches some path beneath the directory. -/
theorem pattern_tests_exact : (∀ pat s, wildcardMatch pat s = true ↔ Glob pat s) ∧
    ∀ p d, canMatchUnder p d = true ↔ ∃ e ≠ [], segMatch p (d ++ e) = true := by
  refine ⟨fun _ _ => wildcardMatch_iff, fun p d => ⟨fun h => ?_, ?_⟩⟩
  · induction p generalizing d with
    | nil => cases h
    | cons seg p ih =>
      obtain ⟨n, hn⟩ := exists_segMatch p
      by_cases hspan : seg = ['*', '*']
      · refine ⟨[] :: n, cons_ne_nil _ _, ?_⟩
        simp only [segMatch.eq_def (seg :: p), if_pos hspan, any_eq_true, mem_tails]
        exact ⟨n, (suffix_cons [] n).trans (suffix_append d _), hn⟩
      · cases d with
        | nil =>
          obtain ⟨x, hx⟩ := exists_glob seg
          refine ⟨x :: n, cons_ne_nil _ _, ?_⟩
          rw [nil_append, segMatch, if_neg hspan, wildcardMatch_iff.mpr hx, hn, Bool.and_self]
        | cons x d =>
          rw [canMatchUnder, if_neg hspan, and_eq_true] at h
          obtain ⟨e, he, hp⟩ := ih d h.2
          refine ⟨e, he, ?_⟩
          rw [cons_append, segMatch, if_neg hspan, h.1, hp, Bool.and_self]
  · rintro ⟨e, he, hp⟩
    exact canMatchUnder_of_segMatch he hp

/-!
## What a build's context leaves out

Exclusion goes down a tree: an entry inherits its directory's state, and each pattern that matches it
overrides that, the last one winning, so a negated pattern takes back what lies beneath an excluded
directory. A walk leaves out an excluded directory unless a negated pattern could match beneath it. The
context's root is the path without segments, yet its text has one, which is empty: a pattern of stars
excludes it, and nothing is found that could match beneath it.
-/

/-- The names of files: their texts, as far as they have one, have no slash. -/
structure Names (N : Type) where
  text : N → List Char
  noSlash : ∀ n, '/' ∉ text n

mutual

/-- What is at a path: a directory, or a file or link. -/
inductive Node (N : Type) where
  | file
  | dir (kids : Kids N)

/-- The entries of a directory. -/
inductive Kids (N : Type) where
  | nil
  | cons (name : N) (node : Node N) (rest : Kids N)

end

variable {N : Type}

/-- An entry of a directory. -/
inductive Kids.Mem (name : N) (node : Node N) : Kids N → Prop where
  | head {rest} : Kids.Mem name node (.cons name node rest)
  | tail {name' node' rest} : Kids.Mem name node rest → Kids.Mem name node (.cons name' node' rest)

mutual

/-- The names of each directory's entries differ. -/
def Node.Distinct : Node N → Prop
  | .file => True
  | .dir kids => kids.Distinct

/-- The names of entries, and of those beneath them, differ. -/
def Kids.Distinct : Kids N → Prop
  | .nil => True
  | .cons name node rest => (∀ node', ¬ rest.Mem name node') ∧ node.Distinct ∧ rest.Distinct

end

structure Tree (N : Type) where
  node : Node N
  distinct : node.Distinct

/-- A file or link beneath a node. -/
inductive Node.FileAt : Node N → List N → Prop where
  | file : Node.FileAt .file []
  | dir {kids name node rel} : kids.Mem name node → Node.FileAt node rel → Node.FileAt (.dir kids) (name :: rel)

/-- The patterns of a context, negated or not, in their order. -/
structure Ignore (N : Type) where
  names : Names N
  root : List N
  patterns : List (Bool × List Char)

variable [LinearOrder N]

namespace Ignore

variable (ig : Ignore N)

/-- The text of a path from the context's root on, if it is beneath it. -/
def rel (path : List N) : Option (List Char) :=
  if ig.root.isPrefixOf path then
    some (['/'].intercalate ((path.drop ig.root.length).map ig.names.text))
  else none

/-- Whether a path is excluded, given whether its directory is. -/
def excluded (path : List N) (parent : Bool) : Bool :=
  match ig.rel path with
  | none => parent
  | some rel => ig.patterns.foldl (fun ex pattern => if globMatch pattern.2 rel then !pattern.1 else ex) parent

/-- Whether a negated pattern could match beneath a directory. -/
def couldReincludeUnder (path : List N) : Bool :=
  match ig.rel path with
  | none => false
  | some rel => (ig.patterns.filter (·.1)).any fun pattern => canMatchUnder (segments pattern.2) (segments rel)

mutual

/-- Walk a node: what of it is left in. The directory the walk starts at is itself left out. -/
def collect (ig : Ignore N) (path : List N) (parentExcluded top : Bool) : Node N → List (List N)
  | .file => if ig.excluded path parentExcluded then [] else [path]
  | .dir kids =>
    let excluded := ig.excluded path parentExcluded
    if excluded && !ig.couldReincludeUnder path then []
    else (if top then [] else [path]) ++ ig.collectKids path excluded kids

/-- Walk the entries of a directory, in any order: what is found is sorted. -/
def collectKids (ig : Ignore N) (path : List N) (excluded : Bool) : Kids N → List (List N)
  | .nil => []
  | .cons name node rest => ig.collect (path ++ [name]) excluded false node ++ ig.collectKids path excluded rest

end

/-- The entries that a copy of a path reproduces. What the path leads to is given. -/
def includedEntries (start : List N) (tree : Tree N) : List (List N) :=
  (ig.collect start false true tree.node).insertionSort (· ≤ ·)

/-- The state of an entry beneath a path, from that of the path down. -/
def excludedBeneath (ig : Ignore N) : List N → Bool → List N → Bool
  | _, excluded, [] => excluded
  | path, excluded, name :: rel =>
    ig.excludedBeneath (path ++ [name]) (ig.excluded (path ++ [name]) excluded) rel

variable {ig : Ignore N} {path rel : List N} {name : N}

theorem segments_rel (hne : rel ≠ []) : ∃ text, ig.rel (ig.root ++ rel) = some text ∧
    segments text = rel.map ig.names.text := by
  refine ⟨['/'].intercalate (rel.map ig.names.text), ?_, ?_⟩
  · rw [Ignore.rel, if_pos (by simp), drop_left]
  · refine splitOn_intercalate '/' (fun l hl => ?_) (by simpa using hne)
    obtain ⟨n, -, rfl⟩ := mem_map.mp hl
    exact ig.names.noSlash n

theorem excluded_of_no_reinclude (h : ∀ text, ig.rel path = some text →
    ∀ pattern ∈ ig.patterns, pattern.1 = true → globMatch pattern.2 text = false) : ig.excluded path true = true := by
  unfold excluded
  cases hrel : ig.rel path with
  | none => rfl
  | some text =>
    have hnone := h text hrel
    dsimp only
    revert hnone
    generalize ig.patterns = patterns
    intro hnone
    induction patterns with
    | nil => rfl
    | cons pattern patterns ih =>
      rw [foldl_cons]
      have hstep : (if globMatch pattern.2 text = true then !pattern.1 else true) = true := by
        split_ifs with hmatch
        · cases hneg : pattern.1 with
          | false => rfl
          | true =>
            have hfalse := hnone pattern mem_cons_self hneg
            nomatch hmatch.symm.trans hfalse
        · rfl
      rw [hstep]
      exact ih fun p hp => hnone p (mem_cons_of_mem pattern hp)

section

variable (hne : rel ≠ []) (hunder : ig.couldReincludeUnder (ig.root ++ rel) = false)
include hne hunder

/-- Below a directory that cannot be included again all is excluded. -/
theorem excluded_beneath {e : List N} (he : e ≠ []) : ig.excluded (ig.root ++ rel ++ e) true = true := by
  refine excluded_of_no_reinclude fun text htext pattern hpattern hneg => ?_
  obtain ⟨dir, hdir, hdirs⟩ := @segments_rel N _ ig rel hne
  obtain ⟨text', htext', hsegments⟩ := @segments_rel N _ ig (rel ++ e) (by simp [he])
  rw [append_assoc] at htext
  obtain rfl := Option.some.inj (htext.symm.trans htext')
  by_contra hmatch
  rw [not_eq_false, globMatch, hsegments, map_append, ← hdirs] at hmatch
  have hcan := canMatchUnder_of_segMatch (by simpa using he) hmatch
  rw [couldReincludeUnder, hdir] at hunder
  have hnone := any_eq_false.mp hunder pattern (mem_filter.mpr ⟨hpattern, hneg⟩)
  exact hnone hcan

theorem excludedBeneath_of_pruned (e e' : List N) : ig.excludedBeneath (ig.root ++ rel ++ e) true e' = true := by
  induction e' generalizing e with
  | nil => rfl
  | cons name e' ih =>
    rw [excludedBeneath, append_assoc (ig.root ++ rel), excluded_beneath hne hunder (by simp)]
    exact ih (e ++ [name])

end

mutual

theorem exists_of_mem_collect : (node : Node N) → {path p : List N} → {parent top : Bool} →
    p ∈ ig.collect path parent top node → ∃ e, p = path ++ e
  | .file, path, p, parent, top, h => by
    rw [collect] at h
    split_ifs at h with hexcluded
    · nomatch h
    · exact ⟨[], by rw [mem_singleton.mp h, append_nil]⟩
  | .dir kids, path, p, parent, top, h => by
    rw [collect] at h
    split_ifs at h with hpruned htop
    · nomatch h
    · obtain ⟨name, node, e, -, rfl⟩ := exists_of_mem_collectKids kids h
      exact ⟨name :: e, rfl⟩
    · rcases mem_append.mp h with h | h
      · exact ⟨[], by rw [mem_singleton.mp h, append_nil]⟩
      · obtain ⟨name, node, e, -, rfl⟩ := exists_of_mem_collectKids kids h
        exact ⟨name :: e, rfl⟩

theorem exists_of_mem_collectKids : (kids : Kids N) → {path p : List N} → {excluded : Bool} →
    p ∈ ig.collectKids path excluded kids → ∃ name node e, kids.Mem name node ∧ p = path ++ name :: e
  | .nil, path, p, excluded, h => by
    rw [collectKids] at h
    nomatch h
  | .cons name node rest, path, p, excluded, h => by
    rw [collectKids] at h
    rcases mem_append.mp h with h | h
    · obtain ⟨e, rfl⟩ := exists_of_mem_collect node h
      exact ⟨name, node, e, .head, by rw [append_assoc]; rfl⟩
    · obtain ⟨name', node', e, hmem, rfl⟩ := exists_of_mem_collectKids rest h
      exact ⟨name', node', e, .tail hmem, rfl⟩

end

mutual

/-- Where the start itself is not left out, a file beneath it is found as it is not excluded. -/
theorem mem_collect_iff : (node : Node N) → node.Distinct → {rel e : List N} → {parent top : Bool} →
    (rel = [] → ig.excluded ig.root parent = true → ig.couldReincludeUnder ig.root = true) → node.FileAt e →
    (ig.root ++ rel ++ e ∈ ig.collect (ig.root ++ rel) parent top node ↔
      ig.excludedBeneath (ig.root ++ rel) (ig.excluded (ig.root ++ rel) parent) e = false)
  | .file, _, rel, e, parent, top, _, hfile => by
    cases hfile with
    | file =>
      rw [collect, append_nil, excludedBeneath]
      cases ig.excluded (ig.root ++ rel) parent with
      | true | false => simp
  | .dir kids, hdistinct, rel, e, parent, top, hroot, hfile => by
    cases hfile with
    | @dir _ name node e hmem hfile =>
      have hkids := @mem_collectKids_iff kids hdistinct rel e (ig.excluded (ig.root ++ rel) parent) _ _ hmem hfile
      rw [collect, excludedBeneath]
      by_cases hpruned : (ig.excluded (ig.root ++ rel) parent && !ig.couldReincludeUnder (ig.root ++ rel)) = true
      · rw [if_pos hpruned]
        rw [and_eq_true, not_eq_true'] at hpruned
        obtain ⟨hexcluded, hunder⟩ := hpruned
        have hne : rel ≠ [] := by
          rintro rfl
          rw [append_nil] at hexcluded hunder
          exact absurd (hunder.symm.trans (hroot rfl hexcluded)) false_ne_true
        have hstays := excludedBeneath_of_pruned hne hunder [] (name :: e)
        rw [append_nil, excludedBeneath] at hstays
        rw [hexcluded, hstays]
        simp
      · rw [if_neg hpruned, mem_append, hkids, or_iff_right]
        intro hself
        split_ifs at hself
        · nomatch hself
        · simp at hself

/-- Of a directory's entries, what is collected is what is not excluded. -/
theorem mem_collectKids_iff : (kids : Kids N) → kids.Distinct → {rel e : List N} → {excluded : Bool} →
    {name : N} → {node : Node N} → kids.Mem name node → node.FileAt e →
    (ig.root ++ rel ++ name :: e ∈ ig.collectKids (ig.root ++ rel) excluded kids ↔
      ig.excludedBeneath (ig.root ++ rel ++ [name]) (ig.excluded (ig.root ++ rel ++ [name]) excluded) e = false)
  | .nil, _, _, _, _, _, _, hmem, _ => nomatch hmem
  | .cons name' node' rest, hdistinct, rel, e, excluded, name, node, hmem, hfile => by
    obtain ⟨hnew, hnode, hrest⟩ := hdistinct
    rw [collectKids, mem_append]
    cases hmem with
    | head =>
      have hat := @mem_collect_iff node' hnode (rel ++ [name']) e excluded false (by simp) hfile
      rw [← append_assoc, append_assoc (ig.root ++ rel), singleton_append] at hat
      rw [hat, or_iff_left]
      intro hin
      obtain ⟨name, node, e', hmem, heq⟩ := exists_of_mem_collectKids rest hin
      rw [append_cancel_left_eq] at heq
      obtain ⟨rfl, -⟩ := List.cons.inj heq
      exact hnew node hmem
    | tail hmem =>
      rw [mem_collectKids_iff rest hrest hmem hfile, or_iff_right]
      intro hin
      obtain ⟨e', heq⟩ := exists_of_mem_collect node' hin
      rw [append_assoc _ [name'], append_cancel_left_eq] at heq
      obtain ⟨rfl, -⟩ := List.cons.inj heq
      exact hnew node hmem

end

theorem couldReincludeUnder_root :
    ig.couldReincludeUnder ig.root = true ↔ ∃ pattern ∈ ig.patterns, pattern.1 = true ∧ Open (segments pattern.2) := by
  have hrel : ig.rel ig.root = some [] := by simp [Ignore.rel]
  rw [couldReincludeUnder, hrel]
  dsimp only
  rw [any_eq_true]
  refine exists_congr fun pattern => ?_
  rw [mem_filter, ← canMatchUnder_root]
  exact ⟨fun h => ⟨h.1.1, h.1.2, h.2⟩, fun h => ⟨⟨h.1, h.2.1⟩, h.2.2⟩⟩

/-- Where the walk turns back it collects nothing. -/
theorem collect_of_pruned {parent top : Bool} (hexcluded : ig.excluded path parent = true)
    (hunder : ig.couldReincludeUnder path = false) (node : Node N) : ig.collect path parent top node = [] := by
  cases node with
  | file => rw [collect, if_pos hexcluded]
  | dir kids => exact if_pos (by rw [hexcluded, hunder]; rfl)

/-- The files and links that a copy of a directory reproduces are those beneath it that are not excluded, from the
directory down, except exactly where the directory is the context's root, the root is excluded, no re-including
pattern is open, and some file beneath it is not excluded. -/
theorem included_files_iff (ig : Ignore N) (dir : List N) (tree : Tree N) :
    (∀ p, (p ∈ ig.includedEntries (ig.root ++ dir) tree ∧ ∃ e, p = ig.root ++ dir ++ e ∧ tree.node.FileAt e) ↔
      ∃ e, p = ig.root ++ dir ++ e ∧ tree.node.FileAt e ∧
        ig.excludedBeneath (ig.root ++ dir) (ig.excluded (ig.root ++ dir) false) e = false) ↔
    (dir = [] → ig.excluded ig.root false = true →
      (∃ pattern ∈ ig.patterns, pattern.1 = true ∧ Open (segments pattern.2)) ∨
        ∀ e, tree.node.FileAt e → ig.excludedBeneath ig.root true e = true) := by
  rw [← couldReincludeUnder_root]
  by_cases hpruned : dir = [] ∧ ig.excluded ig.root false = true ∧ ig.couldReincludeUnder ig.root = false
  · obtain ⟨rfl, hexcluded, hunder⟩ := hpruned
    have hnone : ig.includedEntries ig.root tree = [] := by
      rw [includedEntries, collect_of_pruned hexcluded hunder, insertionSort_nil]
    rw [append_nil, hnone, hexcluded]
    constructor
    · refine fun h _ _ => .inr fun e hfile => ?_
      by_contra hnot
      exact not_mem_nil ((h _).mpr ⟨e, rfl, hfile, Bool.not_eq_true _ ▸ hnot⟩).1
    · intro h p
      refine iff_of_false (fun hin => not_mem_nil hin.1) ?_
      rintro ⟨e, -, hfile, hnot⟩
      obtain hopen | hall := h rfl rfl
      · cases hunder.symm.trans hopen
      · cases hnot.symm.trans (hall e hfile)
  · have hwalk : dir = [] → ig.excluded ig.root false = true → ig.couldReincludeUnder ig.root = true := by
      intro hdir hexcluded
      by_contra hunder
      exact hpruned ⟨hdir, hexcluded, Bool.not_eq_true _ ▸ hunder⟩
    refine iff_of_true (fun p => ?_) fun hdir hexcluded => .inl (hwalk hdir hexcluded)
    have hmem : ∀ e, tree.node.FileAt e → (ig.root ++ dir ++ e ∈ ig.includedEntries (ig.root ++ dir) tree ↔
        ig.excludedBeneath (ig.root ++ dir) (ig.excluded (ig.root ++ dir) false) e = false) := by
      intro e hfile
      rw [includedEntries, mem_insertionSort]
      exact mem_collect_iff tree.node tree.distinct hwalk hfile
    constructor
    · rintro ⟨hin, e, rfl, hfile⟩
      exact ⟨e, rfl, hfile, (hmem e hfile).mp hin⟩
    · rintro ⟨e, rfl, hfile, hnot⟩
      exact ⟨(hmem e hfile).mpr hnot, e, rfl, hfile⟩

end Ignore

abbrev PlainName := {s : List Char // '/' ∉ s}

def plainNames : Names PlainName := ⟨Subtype.val, Subtype.property⟩

/-- The names of two examples' files. -/
def buildName : PlainName := ⟨"build".toList, by decide⟩

@[inherit_doc buildName]
def keepName : PlainName := ⟨"keep".toList, by decide⟩

@[inherit_doc buildName]
def srcName : PlainName := ⟨"src".toList, by decide⟩

/-- A file in an excluded directory is taken back. -/
theorem included_files_iff_taken_back : ∃ (ig : Ignore PlainName) (tree : Tree PlainName),
      ig.patterns = [(false, "build".toList), (true, "build/keep".toList)] ∧
      [buildName, keepName] ∈ ig.includedEntries [] tree := by
  let ig : Ignore PlainName := ⟨plainNames, [], [(false, "build".toList), (true, "build/keep".toList)]⟩
  let tree : Tree PlainName := ⟨.dir (.cons buildName (.dir (.cons keepName .file .nil)) .nil),
    ⟨nofun, ⟨nofun, trivial, trivial⟩, trivial⟩⟩
  have hfile : tree.node.FileAt [buildName, keepName] := .dir .head (.dir .head .file)
  exact ⟨ig, tree, rfl, ((ig.included_files_iff [] tree).mpr
    (fun _ hexcluded => absurd hexcluded (by decide +kernel)) _).mpr ⟨_, rfl, hfile, by decide +kernel⟩ |>.1⟩

/-- A context that leaves out all but one file: the root is excluded, and the file is dropped. -/
theorem root_pruned : ∃ (ig : Ignore PlainName) (tree : Tree PlainName),
      ig.patterns = [(false, "*".toList), (true, "src".toList)] ∧ tree.node.FileAt [srcName] ∧
      ig.excludedBeneath [] (ig.excluded [] false) [srcName] = false ∧ ig.includedEntries [] tree = [] := by
  let ig : Ignore PlainName := ⟨plainNames, [], [(false, "*".toList), (true, "src".toList)]⟩
  let tree : Tree PlainName := ⟨.dir (.cons srcName .file .nil), ⟨nofun, trivial, trivial⟩⟩
  exact ⟨ig, tree, rfl, .dir .head .file, by decide +kernel, by decide +kernel⟩

end Virtkit.Build
