import Mathlib.Data.List.Infix
import Mathlib.Order.Nat
import Virtkit.Common.Bytes
import Virtkit.Fleet.Text

/-!
# The audit log and its pages

Lines are appended under increasing numbers, the oldest dropped past a bound, with two indexes beside
them. A search reads a page, newest first, over the index its filter allows, until the page is full or
its budget spent. The cursors lead from page to page over every line that the filter matches.
-/

namespace Virtkit.Audit

open Virtkit.Common Virtkit.Fleet List

structure AuditRow where
  loggedAt : ℕ
  node : Option String
  actor : String
  event : String

inductive AuditKind | people | system | jobs
  deriving DecidableEq

/-- Which kinds a page shows. -/
inductive AuditCategory | notJobs | people | system | jobs | all

def AuditCategory.admits : AuditCategory → AuditKind → Bool
  | .notJobs, kind => kind ≠ .jobs
  | .people, kind => kind = .people
  | .system, kind => kind = .system
  | .jobs, kind => kind = .jobs
  | .all, _ => true

/-- What follows a text that `s` starts with. -/
def strip (s start : List Char) : Option (List Char) := if start <+: s then some (s.drop start.length) else none

/-- What stands before and after the first place of a separator. -/
def splitOnce (sep : List Char) : List Char → Option (List Char × List Char)
  | [] => none
  | c :: s => match strip (c :: s) sep with
    | some rest => some ([], rest)
    | none => (splitOnce sep s).map fun p => (c :: p.1, p.2)

/-- The identity of a web session opened through a provider. -/
def sessionIdentity (actor : List Char) : Option (List Char) := do
  let session ← strip actor "ui session ".toList
  let inside := (← splitOnce " (".toList session).2
  let inside ← if inside.getLast? = some ')' then some inside.dropLast else none
  let identity := (← splitOnce ", ".toList inside).2
  if identity.isEmpty then none else some identity

/-- Whom the filter puts an actor's lines under. -/
def who (actor : String) : String :=
  match sessionIdentity actor.toList, splitOnce [' '] actor.toList with
  | some identity, _ => String.ofList identity
  | none, some (group, _) =>
    if group = "rollout".toList || group = "peer".toList then String.ofList group else actor
  | none, none => actor

def aboutAJob (event : List Char) : Bool :=
  "job ".toList <+: event || "reservation ".toList <+: event ||
  (((strip event "node ".toList).bind (splitOnce [' '])).any fun p => "refused job ".toList <+: p.2) ||
  ((splitOnce [' '] event).any fun p =>
    !p.1.isEmpty && p.1.all Char.isDigit && "reservation(s) on node ".toList <+: p.2) ||
  ("issued registry token ".toList <+: event && " for job ".toList <:+: event)

def kind (actor event : String) : AuditKind :=
  if "key ".toList <+: actor.toList || (actor = "hub" && aboutAJob event.toList) then .jobs
  else if actor ∈ ["hub", "node", "registry", "vk-hub local"] || "rollout ".toList <+: actor.toList ||
    "peer ".toList <+: actor.toList then .system
  else .people

def containsFolded (haystack needle : String) : Bool :=
  let fold (s : String) := s.toUTF8.toList.map asciiLower
  fold needle <:+: fold haystack

structure AuditFilter where
  node : Option String := none
  who : Option String := none
  category : AuditCategory := .notJobs
  text : Option String := none

def AuditFilter.matches (f : AuditFilter) (row : AuditRow) : Bool :=
  f.node.all (fun n => row.node = some n) && f.who.all (fun w => Audit.who row.actor = w) &&
    f.category.admits (kind row.actor row.event) &&
    f.text.all fun t => containsFolded row.event t || containsFolded row.actor t

/-- The most numbers from the first line to the last, and how many are dropped at once. -/
def auditMax : ℕ := 100000
def auditPrune : ℕ := 1000

abbrev Line := ℕ × AuditRow

abbrev Entry := String × ℕ

/-- The lines in the order of their numbers, and the entries of the indexes, those of one name in the
order of their numbers. -/
structure AuditLog where
  table : List Line := []
  byNode : List Entry := []
  byWho : List Entry := []

/-- Under which name each index has a line. -/
def nodeName (row : AuditRow) : Option String := row.node
def whoName (row : AuditRow) : Option String := some (who row.actor)

section Indexes

variable (name : AuditRow → Option String)

def unindex (index : List Entry) (e : Line) : List Entry := (name e.2).elim index fun n => index.filter (· ≠ (n, e.1))

/-- Insert the entry of a line, the last of its name. -/
def insertEntry (index : List Entry) (e : Line) : List Entry :=
  unindex name index e ++ ((name e.2).map (·, e.1)).toList

def index (t : List Line) : List Entry := t.filterMap fun e => (name e.2).map (·, e.1)

end Indexes

namespace AuditLog

def drop (log : AuditLog) (e : Line) : AuditLog :=
  ⟨log.table.filter (·.1 ≠ e.1), unindex nodeName log.byNode e, unindex whoName log.byWho e⟩

/-- A call's node, actor, event and time. -/
abbrev Call := Option String × String × String × ℕ

def appendAudit (log : AuditLog) : Call → AuditLog
  | (node, actor, event, now) =>
    let row : AuditRow := ⟨now, node, actor, displaySafe event⟩
    let seq := (log.table.getLast?.map fun e => e.1 + 1).getD 0
    let log : AuditLog := ⟨log.table ++ [(seq, row)],
      insertEntry nodeName log.byNode (seq, row), insertEntry whoName log.byWho (seq, row)⟩
    let first := (log.table.head?.map Prod.fst).getD seq
    if auditMax ≤ seq - first then
      (log.table.filter fun e => first ≤ e.1 ∧ e.1 < first + auditPrune).foldl drop log
    else log

def made (calls : List Call) : AuditLog := calls.foldl appendAudit {}

/-- The lines that a name of an index leads to below a cursor, newest first. -/
def indexed (log : AuditLog) (index : List Entry) (name : String) (before : Option ℕ) : List Line :=
  (index.filter fun e => e.1 = name ∧ before.all (e.2 < ·)).reverse.filterMap fun e =>
    (log.table.lookup e.2).map (e.2, ·)

/-- The lines a search goes over. -/
def candidates (log : AuditLog) (f : AuditFilter) (before : Option ℕ) : List Line :=
  match f.who, f.node with
  | some w, _ => log.indexed log.byWho w before
  | none, some n => log.indexed log.byNode n before
  | none, none => (log.table.filter fun e => before.all (e.1 < ·)).reverse

end AuditLog

structure AuditFound where
  rows : List Line
  older : Option ℕ
  cut : Bool

variable (f : AuditFilter) (limit scan : ℕ) (log : AuditLog)

/-- The loop of a search, with the number of lines examined, the last of them and the rows found. -/
def take : List Line → ℕ → Option ℕ → List Line → AuditFound
  | [], _, _, rows => ⟨rows, none, false⟩
  | e :: rest, examined, last, rows =>
    if scan ≤ examined then ⟨rows, last, true⟩
    else if f.matches e.2 then
      if rows.length = limit then ⟨rows, rows.getLast?.map Prod.fst, false⟩
      else take rest (examined + 1) (some e.1) (rows ++ [e])
    else take rest (examined + 1) (some e.1) rows

def auditSearchScanning (before : Option ℕ) : AuditFound := take f limit scan (log.candidates f before) 0 none []

/-- The pages from a cursor on, until one has no cursor. -/
def pages : ℕ → Option ℕ → Option (List AuditFound)
  | 0, _ => none
  | fuel + 1, before =>
    let found := auditSearchScanning f limit scan log before
    match found.older with
    | none => some [found]
    | some seq => (pages fuel (some seq)).map (found :: ·)

variable {f limit scan log} {t : List Line} {e : Line} {name : AuditRow → Option String}

/-- Taking a line out of the index is indexing without it. -/
theorem unindex_index (h : ∀ x ∈ t, x.1 = e.1 → x = e) :
    unindex name (index name t) e = index name (t.filter (·.1 ≠ e.1)) := by
  induction t with
  | nil => cases hn : name e.2 <;> simp [unindex, index, hn]
  | cons x t ih =>
    have ih := ih fun y hy => h y (mem_cons_of_mem _ hy)
    by_cases hx : x.1 = e.1
    · obtain rfl := h x mem_cons_self hx
      cases hn : name x.2 <;> simp_all [unindex, index]
    · cases hn : name e.2 <;> cases hm : name x.2 <;> simp_all [unindex, index]

def Ascending (t : List Line) : Prop := t.Pairwise fun x y => x.1 < y.1

/-- The numbers increase, and the indexes are those of the lines. -/
structure Indexed (log : AuditLog) : Prop where
  keys : Ascending log.table
  byNode : log.byNode = index nodeName log.table
  byWho : log.byWho = index whoName log.table

theorem Ascending.lookup (h : Ascending t) (he : e ∈ t) : t.lookup e.1 = some e.2 ∧ ∀ x ∈ t, x.1 = e.1 → x = e := by
  induction h with
  | nil => nomatch he
  | cons hlt _ ih =>
    rcases mem_cons.mp he with rfl | he
    · exact ⟨lookup_cons_self, by grind⟩
    · exact ⟨lookup_cons.trans (by simp [ih he, beq_false_of_ne (hlt _ he).ne']), by grind⟩

theorem Indexed.drop (h : Indexed log) (he : e ∈ log.table) : Indexed (log.drop e) := by
  have hkey := (h.keys.lookup he).2
  exact ⟨h.keys.filter _, by simp only [AuditLog.drop, h.byNode, unindex_index hkey],
    by simp only [AuditLog.drop, h.byWho, unindex_index hkey]⟩

theorem Indexed.foldl_drop {ds : List Line} (h : Indexed log) (hds : Ascending ds)
    (hmem : ∀ d ∈ ds, d ∈ log.table) : Indexed (ds.foldl AuditLog.drop log) := by
  induction hds generalizing log with
  | nil => exact h
  | cons hlt _ ih =>
    apply ih (h.drop (hmem _ mem_cons_self))
    intro d hd
    exact mem_filter.mpr ⟨hmem d (mem_cons_of_mem _ hd), decide_eq_true (hlt d hd).ne'⟩

/-- Appending keeps the indexes those of the table. -/
theorem Indexed.append (h : Indexed log) (call : AuditLog.Call) : Indexed (log.appendAudit call) := by
  obtain ⟨node, actor, event, now⟩ := call
  set seq := (log.table.getLast?.map fun e => e.1 + 1).getD 0 with hseq
  have hbelow : ∀ x ∈ log.table, x.1 < seq := by
    cases hinit : log.table using reverseRecOn with
    | nil => simp
    | append_singleton init last =>
      have hkeys := h.keys
      rw [hinit, Ascending, pairwise_append] at hkeys
      intro x hx
      rcases mem_append.mp hx with hx | hx
      · simpa [hseq, hinit] using Nat.lt_succ_of_lt (hkeys.2.2 x hx last mem_cons_self)
      · simp [hseq, hinit, mem_singleton.mp hx]
  have hnew (name : AuditRow → Option String) (row : AuditRow) :
      insertEntry name (index name log.table) (seq, row) = index name (log.table ++ [(seq, row)]) := by
    have hfilter : log.table.filter (·.1 ≠ seq) = log.table := by
      simpa [filter_eq_self] using fun a b hab => (hbelow (a, b) hab).ne
    rw [insertEntry, unindex_index fun x hx hk => absurd hk (hbelow x hx).ne, hfilter]
    cases hr : name row <;> simp [index, hr]
  simp only [AuditLog.appendAudit, ← hseq, h.byNode, h.byWho, hnew]
  have hkeys (row : AuditRow) : Ascending (log.table ++ [(seq, row)]) :=
    pairwise_append.mpr ⟨h.keys, pairwise_singleton _ _, by simpa using fun a b hab => hbelow (a, b) hab⟩
  split_ifs
  · exact Indexed.foldl_drop ⟨hkeys _, rfl, rfl⟩ ((hkeys _).filter _) fun d hd => (mem_filter.mp hd).1
  · exact ⟨hkeys _, rfl, rfl⟩

theorem Indexed.foldl_append (h : Indexed log) (calls : List AuditLog.Call) :
    Indexed (calls.foldl AuditLog.appendAudit log) := by
  induction calls generalizing log with
  | nil => exact h
  | cons call calls ih => exact ih (h.append call)

/-- Whether the path that a search takes leads to a line. -/
def onPath (f : AuditFilter) (row : AuditRow) : Bool :=
  match f.who, f.node with
  | some w, _ => whoName row = some w
  | none, some n => nodeName row = some n
  | none, none => true

theorem Indexed.indexed_eq (h : Indexed log) (n : String) (before : Option ℕ) :
    log.indexed (index name log.table) n before =
      (log.table.filter fun e => name e.2 = some n ∧ before.all (e.1 < ·)).reverse := by
  rw [AuditLog.indexed, index, filter_filterMap, ← filterMap_reverse, filterMap_filterMap, ← filter_reverse,
    ← filterMap_eq_filter]
  apply filterMap_congr
  intro e he
  have hget := (h.keys.lookup (mem_reverse.mp he)).1
  cases hname : name e.2 with
  | none => simp [Option.guard, hname]
  | some m =>
    by_cases hm : m = n ∧ before.all (e.1 < ·) <;> simp [Option.guard, Option.filter, hname, hget, hm]

/-- Candidates are the lines on the filter's path, the newest first. -/
theorem Indexed.candidates_eq (h : Indexed log) (f : AuditFilter) (before : Option ℕ) :
    log.candidates f before = (log.table.filter fun e => onPath f e.2 ∧ before.all (e.1 < ·)).reverse := by
  unfold AuditLog.candidates onPath
  cases f.who <;> cases f.node <;> simp [h.byNode, h.byWho, h.indexed_eq]

theorem onPath_of_matches {row : AuditRow} (h : f.matches row = true) : onPath f row = true := by
  unfold AuditFilter.matches at h
  unfold onPath
  cases hw : f.who <;> cases hn : f.node <;> simp_all [whoName, nodeName]

def Descending (t : List Line) : Prop := t.Pairwise fun x y => y.1 < x.1

theorem Descending.filter_lt {a b : List Line} (h : Descending (a ++ e :: b)) :
    (a ++ e :: b).filter (·.1 < e.1) = b := by
  obtain ⟨-, hb, ha⟩ := pairwise_append.mp h
  have hnil : a.filter (·.1 < e.1) = [] := by
    simpa [filter_eq_nil_iff] using fun x y hx => (ha (x, y) hx e mem_cons_self).le
  have hself : b.filter (·.1 < e.1) = b := by
    simpa [filter_eq_self] using fun x y hx => (pairwise_cons.mp hb).1 (x, y) hx
  simp [filter_append, hnil, hself]

def hits (f : AuditFilter) (t : List Line) : List Line := t.filter fun e => f.matches e.2

theorem hits_append (a b : List Line) : hits f (a ++ b) = hits f a ++ hits f b := filter_append ..

/-- What a page leaves: nothing without a cursor; with one, the matches below it follow the rows. -/
def Leaves (f : AuditFilter) (lines : List Line) (found : AuditFound) : Prop :=
  match found.older with
  | none => found.rows = hits f lines
  | some seq => found.rows ++ hits f (lines.filter (·.1 < seq)) = hits f lines ∧ ∃ e ∈ lines, e.1 = seq

/-- A page takes hits in order, and says where to go on. -/
theorem take_leaves {rest : List Line} (done : List Line) (hdesc : Descending (done ++ rest)) : Leaves f (done ++ rest)
      (take f (limit + 1) (scan + 1) rest done.length (done.getLast?.map Prod.fst) (hits f done)) := by
  induction rest generalizing done with
  | nil => simp [take, Leaves]
  | cons e rest ih =>
    have ih := ih (done ++ [e]) (by simpa using hdesc)
    rw [append_assoc, singleton_append, hits_append] at ih
    unfold take
    split_ifs with hscan hmatch hfull
    · -- The budget is spent: what is left is below the last line examined.
      cases done using reverseRecOn with
      | nil => nomatch hscan
      | append_singleton done d =>
        rw [append_assoc, singleton_append] at hdesc ⊢
        simp only [Leaves, getLast?_concat, Option.map_some, hdesc.filter_lt, ← hits_append, append_assoc,
          singleton_append]
        exact ⟨trivial, d, by simp, rfl⟩
    · -- The page is full: what is left matches below the last row.
      cases hrows : hits f done using reverseRecOn with
      | nil => simp [hrows] at hfull
      | append_singleton rows d =>
        have hall : hits f (done ++ e :: rest) = rows ++ d :: hits f (e :: rest) := by simp [hits_append, hrows]
        have hlt : Descending (hits f (done ++ e :: rest)) := hdesc.filter _
        rw [hall] at hlt
        replace hlt := hlt.filter_lt
        have hd : d ∈ done := (mem_filter.mp (hrows ▸ mem_append_right rows (mem_singleton_self d))).1
        rw [← hall, hits, filter_comm] at hlt
        simp only [Leaves, getLast?_concat, Option.map_some, hits.eq_1 f (filter _ _), hlt, hall, append_assoc,
          singleton_append]
        exact ⟨trivial, d, mem_append_left _ hd, rfl⟩
    all_goals simpa [hits, hmatch] using ih

/-- Pages together have every hit once. -/
theorem pages_list (h : Indexed log) (fuel : ℕ) (before : Option ℕ) (hfuel : (log.candidates f before).length < fuel) :
    ∃ ps, pages f (limit + 1) (scan + 1) log fuel before = some ps ∧
      ps.flatMap (·.rows) = hits f (log.candidates f before) := by
  induction fuel generalizing before with
  | zero => nomatch hfuel
  | succ fuel ih =>
    set lines := log.candidates f before with hlines
    have hdesc : Descending lines := by
      rw [hlines, h.candidates_eq, Descending, pairwise_reverse]
      exact h.keys.filter _
    set page := auditSearchScanning f (limit + 1) (scan + 1) log before with hpage
    have hleaves : Leaves f lines page := take_leaves [] hdesc
    unfold pages
    unfold Leaves at hleaves
    cases holder : page.older with
    | none => exact ⟨[page], by simp only [← hpage, holder], by simpa [holder] using hleaves⟩
    | some seq =>
      simp only [holder] at hleaves
      obtain ⟨hrows, e, he, rfl⟩ := hleaves
      have hbelow : log.candidates f (some e.1) = lines.filter (·.1 < e.1) := by
        rw [hlines, h.candidates_eq, mem_reverse, mem_filter] at he
        rw [hlines, h.candidates_eq, h.candidates_eq, filter_reverse, filter_filter]
        congr 1
        apply filter_congr
        cases before <;> grind
      have hless : (lines.filter (·.1 < e.1)).length < lines.length :=
        length_filter_lt_length_iff_exists.mpr ⟨e, he, by simp⟩
      obtain ⟨ps, hps, hlist⟩ := ih (some e.1) (by rw [hbelow]; omega)
      refine ⟨page :: ps, by simp only [← hpage, holder, hps, Option.map_some], ?_⟩
      rw [flatMap_cons, hlist, hbelow, hrows]

/-- Whatever lines were appended, pages of at least one line, each searched with a budget of at least
one, followed from cursor to cursor end, and list the kept lines that the filter matches, newest
first, each once. The lines' numbers increase, and an index has one entry for each line with a name. -/
theorem pages_exact (calls : List AuditLog.Call) (f : AuditFilter) (limit scan : ℕ) :
    Indexed (.made calls) ∧ ∃ fuel ps, pages f (limit + 1) (scan + 1) (.made calls) fuel none = some ps ∧
      ps.flatMap (·.rows) = ((AuditLog.made calls).table.filter (f.matches ·.2)).reverse := by
  have h : Indexed (.made calls) := @Indexed.foldl_append {} ⟨.nil, rfl, rfl⟩ calls
  obtain ⟨ps, hps, hlist⟩ := @pages_list f limit scan _ h _ none (Nat.lt_succ_self _)
  refine ⟨h, _, ps, hps, ?_⟩
  rw [hlist, hits, h.candidates_eq, filter_reverse, filter_filter]
  congr 1
  apply filter_congr
  intro e _
  have := @onPath_of_matches f e.2
  grind

end Virtkit.Audit
