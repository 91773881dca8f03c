import Virtkit.Build.Canonical
import Virtkit.Common.DepthFirst
import Virtkit.Common.Text

/-!
# The order of build stages

A stage needs its base, where that is a stage, and every stage its instructions take files from. What
targets need is built in an order found depth first.
-/

namespace Virtkit.Build

open Virtkit.Common List Relation

/-- What a stage builds on top of, in a plan of so many stages. -/
inductive StageBase (n : ℕ) where
  | image (reference : Text)
  | stage (i : Fin n)
  | scratch

structure Stage (n : ℕ) where
  base : StageBase n
  instructions : List Instruction

/-- The stages of build files, with their names, and how the global arguments expand a text. -/
structure Plan where
  size : ℕ
  stages : Fin size → Stage size
  byName : Text → Option (Fin size)
  interpolate : Text → Text

/-- The references an instruction takes files from. -/
def Instruction.sources : Instruction → List Text
  | .copy c => c.fromRef.toList
  | .run r => r.mounts.filterMap Mount.fromRef
  | _ => []

namespace Plan

/-- The stage a reference names, by its name or its place; another is an external image. -/
def stageRef (p : Plan) (reference : Text) : Option (Fin p.size) :=
  match p.byName (p.interpolate reference) with
  | some i => some i
  | none =>
    (parseU64 (p.interpolate reference)).bind fun i => if h : i.1 < p.size then some ⟨i, h⟩ else none

/-- The stages a stage depends on. -/
def deps (p : Plan) (stage : Fin p.size) : List (Fin p.size) :=
  let base := match (p.stages stage).base with
    | .stage i => [i]
    | _ => []
  let refs := (p.stages stage).instructions.flatMap Instruction.sources
  ((base ++ refs.filterMap p.stageRef).mergeSort fun a b => a ≤ b).dedup

/-- Visit a stage and all it needs: the stages visited, and the order of those done. -/
def visit (p : Plan) (s : (Fin p.size → Mark) × List (Fin p.size)) (node : Fin p.size) :
    Except (Fin p.size) ((Fin p.size → Mark) × List (Fin p.size)) :=
  depthFirst p.deps [(node, false)] s.1 s.2

/-- The order in which targets and all they need are built, or the stage of a cycle. -/
def buildOrderMulti (p : Plan) (targets : List (Fin p.size)) : Except (Fin p.size) (List (Fin p.size)) := do
  let (_, order) ← targets.foldlM p.visit (fun _ => .unvisited, [])
  pure order

/-- A build order is found exactly where the targets need no cycle: of each stage they need once, after
all those it depends on. -/
theorem buildOrderMulti_sorts (p : Plan) (targets : List (Fin p.size)) :
    ((∃ order, p.buildOrderMulti targets = .ok order) ↔
        ∀ n, (∃ t ∈ targets, ReflTransGen (Needs p.deps) t n) → ¬TransGen (Needs p.deps) n n) ∧
      ∀ order, p.buildOrderMulti targets = .ok order → order.Nodup ∧
        (∀ n, n ∈ order ↔ ∃ t ∈ targets, ReflTransGen (Needs p.deps) t n) ∧
        ∀ i n, order[i]? = some n → ∀ d ∈ p.deps n, d ∈ order.take i := by
  have hstart : Walk p.deps targets (targets.map (·, false)) (fun _ => .unvisited) [] := by
    refine ⟨by simp, nodup_nil, by simp, nofun, ?_, fun n hn => ⟨n, by simpa using hn, .refl⟩, by simp⟩
    rw [← append_nil (targets.map _)]
    exact .push trivial
  have hwalked := hstart.walked
  unfold buildOrderMulti visit
  rw [foldlM_depthFirst]
  generalize depthFirst p.deps (targets.map (·, false)) _ _ = result at hwalked ⊢
  cases result with
  | error n => exact ⟨⟨nofun, fun hnone => absurd hwalked.2 (hnone n hwalked.1)⟩, nofun⟩
  | ok s =>
    obtain ⟨hmem, hacyclic⟩ := Walk.ended hwalked
    refine ⟨⟨fun _ n hn => hacyclic n ((hmem n).mpr hn), fun _ => ⟨s.2, rfl⟩⟩, ?_⟩
    rintro - ⟨⟩
    exact ⟨Walk.nodup hwalked, hmem, Walk.sorted hwalked⟩

end Plan

end Virtkit.Build
