import Csolver.Cfg.Graph
import Csolver.Ir.Run

/-!
# The control-flow graph of a function (`Cfg::from_function` of `crates/cfg/src/graph.rs`)

The nodes are the positions of the blocks.
-/

namespace Csolver

open Lib

namespace Func

/-- `index_of`: the position of a block id, the last of several. -/
def indexOf (f : Func) (id : BlockId) : Option Nat :=
  (f.blocks.zipIdx.filter fun p => p.1.id = id).getLast?.map (·.2)

theorem indexOf_spec {f : Func} {id : BlockId} {n : Nat} (h : f.indexOf id = some n) :
    ∃ b, f.blocks[n]? = some b ∧ b.id = id := by
  obtain ⟨p, hp, rfl⟩ := Option.map_eq_some_iff.mp h
  have hmem := List.mem_of_getLast? hp
  obtain ⟨hmem, hid⟩ := List.mem_filter.mp hmem
  exact ⟨p.1, List.mem_zipIdx_iff_getElem?.mp hmem, by simpa using hid⟩

theorem indexOf_isSome {f : Func} {id : BlockId} {b : BasicBlock} (hb : b ∈ f.blocks)
    (hid : b.id = id) : ∃ n, f.indexOf id = some n := by
  obtain ⟨k, hk⟩ := List.mem_iff_getElem?.mp hb
  have hmem : (b, k) ∈ f.blocks.zipIdx.filter fun p => p.1.id = id :=
    List.mem_filter.mpr ⟨List.mem_zipIdx_iff_getElem?.mpr hk, by simp [hid]⟩
  obtain ⟨p, hp⟩ := Option.isSome_iff_exists.mp (List.getLast?_isSome.mpr (List.ne_nil_of_mem hmem))
  exact ⟨p.2, by rw [indexOf, hp]; rfl⟩

/-- The successor lists by position; edges to blocks that do not exist are dropped. -/
def succ (f : Func) : Adj := f.blocks.map fun b => b.term.successors.filterMap f.indexOf

theorem succ_closed (f : Func) : f.succ.Closed := by
  refine Adj.closed_of_rows fun row hrow t ht => ?_
  obtain ⟨b, _, rfl⟩ := List.mem_map.mp hrow
  obtain ⟨id, _, hid⟩ := List.mem_filterMap.mp ht
  obtain ⟨c, hc, _⟩ := indexOf_spec hid
  rw [succ, List.length_map]
  exact (List.getElem?_eq_some_iff.mp hc).1

/-- `Cfg::from_function`. -/
def cfg (f : Func) : Cfg :=
  .ofSucc f.succ ((f.indexOf f.entry).getD 0) (by
    intro hpos
    cases h : f.indexOf f.entry with
    | none => exact hpos
    | some n =>
      obtain ⟨b, hb, _⟩ := indexOf_spec h
      rw [succ, List.length_map]
      exact (List.getElem?_eq_some_iff.mp hb).1) f.succ_closed

end Func

end Csolver
