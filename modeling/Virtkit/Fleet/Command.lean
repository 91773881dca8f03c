import Virtkit.Common.Least
import Virtkit.Common.Table
import Virtkit.Fleet.Rollout

/-!
# Commands to nodes

A command is an operation for a node, valid until it expires. The hub keeps each command it issues
with what the node last said it came to, delivers those still to finish, oldest first, and records
the node's answers: once an answer is final, nothing the node sends replaces it.
-/

namespace Virtkit.Fleet

open Virtkit.Common

/-- What a node can be told to do. -/
inductive Operation where
  | drain
  | undrain
  | quarantine
  | release
  | update (version sha256 : String) (size : ℕ) (signature : Option String) (force : Bool)
      (withinSecs : Option ℕ)
  | reset (images : Bool)
  | tools (version sha256 : String) (size : ℕ)
  deriving DecidableEq

/-- An operation for a node, not to be started from its expiry on. -/
structure Command where
  id : String
  expiresAt : ℕ
  op : Operation
  deriving DecidableEq

/-- A command as the hub keeps it, with what the node last said it came to. -/
structure CommandRow where
  command : Command
  issuedAt : ℕ
  seq : ℕ
  outcome : Option Outcome
  outcomeAt : Option ℕ
  deriving DecidableEq

/-- Whether a command is still to be delivered or finished. -/
def CommandRow.pending (row : CommandRow) : Bool :=
  row.outcome = none || row.outcome = some .accepted

/-- Whether a command is still to be delivered or finished, and not past an expiry that the node
never answered. -/
def CommandRow.live (row : CommandRow) (now : ℕ) : Bool :=
  row.pending && (row.outcome.isSome || now < row.command.expiresAt)

def CommandRow.settledBefore (row : CommandRow) (now keep : ℕ) : Bool :=
  match row.outcome with
  | some .accepted => false
  | some _ => keep < now - row.outcomeAt.getD row.issuedAt
  | none => keep < now - row.command.expiresAt

/-- How long a settled command is kept. -/
def commandKeep : ℕ := 30 * 86400

/-- The commands of all nodes, by the node and the command's ID. -/
abbrev Commands := Table (String × String) CommandRow

variable (commands : Commands) (node : String)

/-- A node's commands, in no order. -/
def commandsOf : List CommandRow :=
  (commands.entries.filter fun e => e.1.1 = node).map fun e => e.2

/-- A node's commands, oldest first. -/
def nodeCommands : List CommandRow :=
  (commandsOf commands node).insertionSort fun a b => a.seq < b.seq ∨ a.seq = b.seq ∧ a.issuedAt ≤ b.issuedAt

/-- A node's commands still to deliver or finish, oldest first. -/
def pendingCommands (now : ℕ) : List Command :=
  ((nodeCommands commands node).filter fun row => row.live now).map CommandRow.command

/-- Keep a new command of a node, dropping those of the node settled long ago. -/
def insertCommand (command : Command) (now : ℕ) : Commands :=
  let commands := commands.retain fun key row => !(key.1 = node && row.settledBefore now commandKeep)
  let seq := (commandsOf commands node).foldl (fun seq row => max seq (satAdd u64Max row.seq 1)) 0
  commands.insert (node, command.id) ⟨command, now, seq, none, none⟩

/-- An answer with its text made safe to print. -/
def displaySafeOutcome : Outcome → Outcome
  | .failed message => .failed (displaySafe message)
  | .refused reason => .refused (displaySafe reason)
  | outcome => outcome

/-- Record a node's answer to a command, if it is news: no answer replaces a final one. -/
def recordAck (commands : Commands) (node command : String) (outcome : Outcome) (now : ℕ) : Commands :=
  let outcome := displaySafeOutcome outcome
  match commands.lookup (node, command) with
  | some row =>
    if row.pending && row.outcome ≠ some outcome then
      commands.insert (node, command) { row with outcome := some outcome, outcomeAt := some now }
    else commands
  | none => commands

/-- A node's commands are the rows filed under its name. -/
theorem mem_commandsOf {commands : Commands} {node : String} {row : CommandRow} :
    row ∈ commandsOf commands node ↔ ∃ id, commands.lookup (node, id) = some row := by
  simp only [commandsOf, List.mem_map, List.mem_filter, decide_eq_true_eq]
  constructor
  · rintro ⟨⟨⟨_, id⟩, row'⟩, ⟨hmem, rfl⟩, rfl⟩
    exact ⟨id, AList.mem_lookup_iff.mpr hmem⟩
  · rintro ⟨id, hrow⟩
    exact ⟨⟨(node, id), row⟩, ⟨AList.mem_lookup_iff.mp hrow, rfl⟩, rfl⟩

end Virtkit.Fleet
