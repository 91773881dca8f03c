import Virtkit.Hub.PlaceSpec

/-!
# Room as sums

What a node's room depends on, as sums over reservations and jobs: what is pending on the node and
what it has placed. A state with less of both has no less room, and notes change neither, but for
the reservations they give back.
-/

namespace Virtkit.Hub

open Virtkit.Common List Nat

structure Capped (field : Envelope → ℕ) (cap : ℕ) : Prop where
  add : ∀ a b, field (a.add b) = satAdd cap (field a) (field b)
  zero : field .zero = 0

theorem capped_memMib : Capped Envelope.memMib u64Max := ⟨fun _ _ => rfl, rfl⟩

theorem capped_cpus : Capped Envelope.cpus u32Max := ⟨fun _ _ => rfl, rfl⟩

theorem capped_diskBytes : Capped Envelope.diskBytes u64Max := ⟨fun _ _ => rfl, rfl⟩

/-- What a reservation adds to what is pending on a node. -/
def resvFigure (field : Envelope → ℕ) (node : String) (since : ℕ) (_ : String) (r : Resv) : ℕ :=
  if r.pending node since then field r.envelope else 0

/-- What a job adds to what is pending on a node. -/
def sentFigure (field : Envelope → ℕ) (node : String) (since : ℕ) (_ : String) (j : LiveJob) : ℕ :=
  if j.pending node since then field j.row.placement.envelope else 0

def pendingSum (s : State) (node : String) (since : ℕ) (field : Envelope → ℕ) : ℕ :=
  s.reservations.sum (resvFigure field node since) + s.jobs.sum (sentFigure field node since)

/-- A capped sum is the sum, up to the cap. -/
theorem Capped.foldl {field : Envelope → ℕ} {cap : ℕ} (h : Capped field cap) (l : List Envelope)
    (a : Envelope) (ha : field a ≤ cap) : field (l.foldl Envelope.add a) = min (field a + (l.map field).sum) cap := by
  induction l generalizing a with
  | nil => simp [ha]
  | cons e l ih =>
    have hle : field (a.add e) ≤ cap := by
      rw [h.add]
      exact min_le_right _ _
    rw [foldl_cons, ih _ hle, h.add, map_cons, sum_cons, satAdd]
    omega

/-- What is pending on a node, as a sum. -/
theorem Capped.pendingOn {field : Envelope → ℕ} {cap : ℕ} (h : Capped field cap) (s : State)
    (node : String) (since : ℕ) (extra : Option Envelope) :
    field (pendingOn s node since extra) = min (extra.elim 0 field + pendingSum s node since field) cap := by
  have hextra : (extra.toList.map field).sum = extra.elim 0 field := by
    cases extra <;> simp
  rw [Virtkit.Hub.pendingOn, h.foldl _ _ (by rw [h.zero]; exact zero_le _), h.zero,
    zero_add, map_append, map_append, sum_append_nat, sum_append_nat, hextra,
    map_map, map_map, sum_map_filter, sum_map_filter, map_map, map_map,
    pendingSum, add_assoc]
  rfl

/-- One for a reservation that counts against its node's ceiling. -/
def liveFigure (node : String) (_ : String) (r : Resv) : ℕ := if r.live node then 1 else 0

def onNodeFigure (node : String) (_ : String) (j : LiveJob) : ℕ :=
  if j.row.node == some node then 1 else 0

def placedSum (s : State) (node : String) : ℕ :=
  s.reservations.sum (liveFigure node) + s.jobs.sum (onNodeFigure node) +
    (s.disowned.lookup node).elim 0 List.length

theorem length_filter_eq_sum {α : Type*} (p : α → Bool) (l : List α) :
    (l.filter p).length = (l.map fun a => if p a then 1 else 0).sum := by
  rw [← sum_map_filter p (fun _ => 1)]
  induction l.filter p with
  | nil => rfl
  | cons a rest ih => rw [length_cons, ih, map_cons, sum_cons, add_comm]

theorem tally_placed (s : State) (node : String) : (tally s node).placed = min (placedSum s node) u64Max := by
  have hlen : ∀ l : List ℕ, l.foldl (fun n _ => satAdd u64Max n 1) 0 = min l.length u64Max := by
    intro l
    have hsum := length_filter_eq_sum (fun _ : ℕ => true) l
    rw [filter_true] at hsum
    rw [foldl_satAdd u64Max (fun _ => 1) l 0 (zero_le _), hsum, zero_add]
    rfl
  unfold tally
  dsimp only
  rw [hlen, length_append, length_map, length_map, length_filter_eq_sum,
    length_filter_eq_sum, map_map, map_map, satAdd, placedSum]
  simp only [Table.sum, liveFigure, onNodeFigure, Function.comp_def]
  omega

/-- The vCPUs of a node's placed work, uncut. -/
def placedCpusSum (s : State) (node : String) : ℕ :=
  s.reservations.sum (fun _ r => if r.live node then r.envelope.cpus else 0) +
    s.jobs.sum fun _ j => if j.row.node == some node then j.row.placement.envelope.cpus else 0

theorem tally_cpus (s : State) (node : String) : (tally s node).cpus = min (placedCpusSum s node) u64Max := by
  unfold tally
  dsimp only
  have hfold := foldl_satAdd u64Max (fun n : ℕ => n)
  rw [hfold _ 0 (zero_le _), map_id', sum_append_nat, sum_map_filter, sum_map_filter,
    map_map, map_map, zero_add, placedCpusSum]
  rfl

/-- The room of a node that takes work, by what is placed and pending there. -/
def roomFigure (row : NodeRow) (p : Placement) (placed : ℕ) (pending : Envelope) : ℕ :=
  match row.heartbeat, row.inventory with
  | some heartbeat, some inventory =>
    match memRoom heartbeat inventory.hardware.memTotalMib with
    | some memFree => fits row heartbeat memFree p.envelope placed pending
    | none => 0
  | _, _ => 0

/-- A node's room, zero where it takes none. -/
def roomNat (hub : HubEnv) (s : State) (node : String) (row : NodeRow) (p : Placement)
    (placed : ℕ) (extra : Option Envelope) : ℕ :=
  if takesWork hub s node row p then roomFigure row p placed (pendingOn s node row.since extra)
  else 0

section

variable (hub : HubEnv) (s : State) (node : String) (row : NodeRow) (p : Placement) (placed : ℕ)
  (extra : Option Envelope)
include hub s node row p placed extra

/-- A room as a number, none if it is zero. -/
theorem room_eq : room hub s node row p placed extra = if 0 < roomNat hub s node row p placed extra then
        some (roomNat hub s node row p placed extra) else none := by
  unfold room roomNat roomFigure
  by_cases htakes : takesWork hub s node row p = true
  · cases hheartbeat : row.heartbeat with
    | none => simp [htakes]
    | some heartbeat =>
      cases hinventory : row.inventory with
      | none => simp [htakes]
      | some inventory =>
        cases hmem : memRoom heartbeat inventory.hardware.memTotalMib with
        | none => simp [htakes, hmem]
        | some memFree =>
          by_cases hpos : 0 < fits row heartbeat memFree p.envelope placed (pendingOn s node row.since extra) <;>
            simp [htakes, hmem, guard, hpos]
  · simp [htakes, guard]

theorem room_getD : (room hub s node row p placed extra).getD 0 = roomNat hub s node row p placed extra := by
  rw [room_eq]
  split
  · rfl
  · rw [Option.getD_none]
    omega

end

theorem fitsBy_le {a b : ℕ} (hab : a ≤ b) (free : Option ℕ) {m n : ℕ} (hmn : n ≤ m) (size : ℕ) :
    fitsBy a (free.map (· - m)) size ≤ fitsBy b (free.map (· - n)) size := by
  cases free with
  | none => exact hab
  | some f =>
    simp only [Option.map_some, fitsBy]
    split
    · exact hab
    · have hdiv : (f - m) / size ≤ (f - n) / size := Nat.div_le_div_right (by omega)
      omega

/-- Less work leaves no less room. -/
theorem roomFigure_le (row : NodeRow) (p : Placement) {m n : ℕ} {a b : Envelope} (hmn : n ≤ m)
    (hmem : b.memMib ≤ a.memMib) (hcpus : b.cpus ≤ a.cpus) (hdisk : b.diskBytes ≤ a.diskBytes) :
    roomFigure row p m a ≤ roomFigure row p n b := by
  unfold roomFigure
  split
  · split
    · rename_i _ _ heartbeat _ _ _ _ memFree _
      have hcap : (placedCap row.ceiling row.report).elim maxFits (· - m) ≤
          (placedCap row.ceiling row.report).elim maxFits (· - n) := by
        cases placedCap row.ceiling row.report with
        | none => exact le_refl _
        | some cap => exact Nat.sub_le_sub_left hmn cap
      have hbase := min_le_min_right maxFits hcap
      have hbymem := fitsBy_le hbase (some memFree) hmem p.envelope.memMib
      have hbycpu := fitsBy_le hbymem (cpuRoom heartbeat) hcpus p.envelope.cpus
      exact fitsBy_le hbycpu (diskRoom heartbeat) hdisk p.envelope.diskBytes
    · exact le_refl _
  · exact le_refl _

/-- The second state has the jobs, links and disowned jobs of the first as far as room depends on
them, and no more reservations. -/
structure Roomier (s s' : State) : Prop where
  jobs : ∀ id, (s'.jobs.lookup id).map LiveJob.core = (s.jobs.lookup id).map LiveJob.core
  held : ∀ node, (s'.links.lookup node).map Link.held = (s.links.lookup node).map Link.held
  reservations : ∀ r x, s'.reservations.lookup r = some x → s.reservations.lookup r = some x
  disowned : s'.disowned = s.disowned

/-- The second state has no more pending and no more placed on any node, whose sessions stand as
they did. -/
structure Lighter (s s' : State) : Prop where
  pending : ∀ node since field, pendingSum s' node since field ≤ pendingSum s node since field
  placed : ∀ node, placedSum s' node ≤ placedSum s node
  held : ∀ node, (s'.links.lookup node).map Link.held = (s.links.lookup node).map Link.held

/-- The two states are the same as far as room depends on them. -/
structure SameRoom (s s' : State) : Prop extends Roomier s s' where
  kept : s'.reservations = s.reservations

section Room

variable {s s' : State}

theorem Notes.roomier (h : Notes s s') : Roomier s s' :=
  ⟨h.jobs, h.held, h.reservations, h.disowned⟩

theorem Quiet.sameRoom (h : Quiet s s') : SameRoom s s' := ⟨h.toNotes.roomier, h.kept⟩

theorem Roomier.sum_jobs (h : Roomier s s') {f : String → LiveJob → ℕ}
    (hf : ∀ k j j', j'.core = j.core → f k j' = f k j) : s'.jobs.sum f = s.jobs.sum f :=
  Table.sum_congr fun id => valueAt_eq_of_map_eq (h.jobs id) fun _ _ hcore _ => hf id _ _ hcore

theorem sentFigure_eq_of_core_eq (field : Envelope → ℕ) (node : String) (since : ℕ) (k : String)
    {j j' : LiveJob} (h : j'.core = j.core) : sentFigure field node since k j' = sentFigure field node since k j := by
  have hcore : ∀ j : LiveJob, sentFigure field node since k j = sentFigure field node since k j.core := fun _ => rfl
  rw [hcore j', hcore j, h]

theorem Roomier.sum_reservations_le (h : Roomier s s') (f : String → Resv → ℕ) :
    s'.reservations.sum f ≤ s.reservations.sum f :=
  Table.sum_le_of_lookup fun r x hx => ⟨x, h.reservations r x hx, le_refl _⟩

theorem Roomier.pendingSum_le (h : Roomier s s') (node : String) (since : ℕ) (field : Envelope → ℕ) :
    pendingSum s' node since field ≤ pendingSum s node since field := by
  have hjobs := h.sum_jobs (f := sentFigure field node since) fun k _ _ hcore =>
    sentFigure_eq_of_core_eq field node since k hcore
  have hres := h.sum_reservations_le (resvFigure field node since)
  unfold pendingSum
  omega

theorem Roomier.placedSum_le (h : Roomier s s') (node : String) : placedSum s' node ≤ placedSum s node := by
  have hjobs := h.sum_jobs (f := onNodeFigure node) fun k j j' hcore => by
    rw [onNodeFigure, onNodeFigure, Notes.row_eq_of_core_eq hcore]
  have hres := h.sum_reservations_le (liveFigure node)
  unfold placedSum
  rw [h.disowned]
  omega

/-- A state with fewer reservations is lighter. -/
theorem Roomier.lighter (h : Roomier s s') : Lighter s s' :=
  ⟨h.pendingSum_le, h.placedSum_le, h.held⟩

theorem takesWork_congr (hheld : ∀ node, (s'.links.lookup node).map Link.held = (s.links.lookup node).map Link.held)
    (hub : HubEnv) (node : String) (row : NodeRow) (p : Placement) :
    takesWork hub s' node row p = takesWork hub s node row p := by
  have hany : ∀ o : Option Link, o.any Link.held = (o.map Link.held).any id := by
    intro o
    cases o <;> rfl
  unfold takesWork
  rw [hany, hany, hheld]

theorem pendingOn_congr {node : String} {since : ℕ} {extra extra' : Option Envelope}
    (h : ∀ field, extra'.elim 0 field + pendingSum s' node since field =
      extra.elim 0 field + pendingSum s node since field) :
    pendingOn s' node since extra' = pendingOn s node since extra := by
  have hfield : ∀ {field : Envelope → ℕ} {cap : ℕ}, Capped field cap →
      field (pendingOn s' node since extra') = field (pendingOn s node since extra) := by
    intro field cap hcapped
    rw [hcapped.pendingOn, hcapped.pendingOn, h]
  have hmem := hfield capped_memMib
  have hcpus := hfield capped_cpus
  have hdisk := hfield capped_diskBytes
  cases ha : pendingOn s' node since extra'
  cases hb : pendingOn s node since extra
  rw [ha, hb] at hmem hcpus hdisk
  simp_all

theorem roomNat_le (hheld : ∀ node, (s'.links.lookup node).map Link.held = (s.links.lookup node).map Link.held)
    (hub : HubEnv) (node : String) (row : NodeRow) (p : Placement) {m n : ℕ} (hmn : n ≤ m)
    {extra extra' : Option Envelope} (hpending : ∀ field, extra'.elim 0 field + pendingSum s' node row.since field ≤
      extra.elim 0 field + pendingSum s node row.since field) :
    roomNat hub s node row p m extra ≤ roomNat hub s' node row p n extra' := by
  have hfield : ∀ {field : Envelope → ℕ} {cap : ℕ}, Capped field cap →
      field (pendingOn s' node row.since extra') ≤ field (pendingOn s node row.since extra) := by
    intro field cap hcapped
    have hle := hpending field
    rw [hcapped.pendingOn, hcapped.pendingOn]
    omega
  unfold roomNat
  rw [takesWork_congr hheld]
  split
  · exact roomFigure_le row p hmn (hfield capped_memMib) (hfield capped_cpus) (hfield capped_diskBytes)
  · exact le_refl _

theorem Lighter.roomNat_le (h : Lighter s s') (hub : HubEnv) (node : String) (row : NodeRow)
    (p : Placement) {m n : ℕ} (hmn : n ≤ m) (extra : Option Envelope) :
    roomNat hub s node row p m extra ≤ roomNat hub s' node row p n extra :=
  Virtkit.Hub.roomNat_le h.held hub node row p hmn fun field => Nat.add_le_add_left (h.pending node row.since field) _

section

variable (h : SameRoom s s')
include h

theorem SameRoom.pendingOn_eq (node : String) (since : ℕ) (extra : Option Envelope) :
    pendingOn s' node since extra = pendingOn s node since extra := by
  apply pendingOn_congr
  intro field
  have hjobs := h.toRoomier.sum_jobs (f := sentFigure field node since) fun k _ _ hcore =>
    sentFigure_eq_of_core_eq field node since k hcore
  rw [pendingSum, pendingSum, hjobs, h.kept]

theorem SameRoom.tally_eq (node : String) : tally s' node = tally s node := by
  have hplaced : (tally s' node).placed = (tally s node).placed := by
    have hjobs := h.toRoomier.sum_jobs (f := onNodeFigure node) fun k j j' hcore => by
      rw [onNodeFigure, onNodeFigure, Notes.row_eq_of_core_eq hcore]
    rw [tally_placed, tally_placed, placedSum, placedSum, hjobs, h.kept, h.disowned]
  have hcpus : (tally s' node).cpus = (tally s node).cpus := by
    have hjobs := h.toRoomier.sum_jobs (f := fun _ j =>
      if j.row.node == some node then j.row.placement.envelope.cpus else 0) fun k j j' hcore => by
        rw [Notes.row_eq_of_core_eq hcore]
    rw [tally_cpus, tally_cpus, placedCpusSum, placedCpusSum, hjobs, h.kept]
  cases ha : tally s' node
  cases hb : tally s node
  rw [ha, hb] at hplaced hcpus
  simp_all

/-- A room is the same where work and links are. -/
theorem SameRoom.room_eq (hub : HubEnv) (node : String) (row : NodeRow) (p : Placement) (placed : ℕ)
    (extra : Option Envelope) : room hub s' node row p placed extra = room hub s node row p placed extra := by
  rw [Virtkit.Hub.room_eq, Virtkit.Hub.room_eq, roomNat, roomNat, takesWork_congr h.held, h.pendingOn_eq]

theorem SameRoom.rooms_eq (hub : HubEnv) (nodes : Nodes) (p : Placement) (skip : List String) :
    rooms hub s' nodes p skip = rooms hub s nodes p skip := by
  simp only [rooms, h.tally_eq, h.room_eq]

theorem SameRoom.candidates_eq (hub : HubEnv) (nodes : Nodes) (p : Placement) (skip : List String) :
    candidates hub s' nodes p skip = candidates hub s nodes p skip := by
  simp only [candidates, h.tally_eq, h.rooms_eq]

end

end Room

end Virtkit.Hub
