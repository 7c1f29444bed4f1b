import Csolver.Absint.PointsTo
import Csolver.Verifier.Facts
import Csolver.Verifier.FactsMerge

/-!
# The constraints of a whole program (`ProgramPointsTo` of `crates/absint/src/pointsto.rs`)

The constraints of a module are generated when it is pushed and solved at the end. A node is named by
what it stands for instead of by the next number: a register by its function, a fresh variable by the
instruction it is made for. Before solving only globals have field cells.

`full` says whether a number of nodes exceeds the budget. With `fun _ => false` for it the definitions
give the relation without the budget.
-/

namespace Csolver

open Lib

namespace ProgramPointsTo

open PointsTo (anyOffset)

inductive Node where
  | top
  | reg (g : FuncId) (r : RegId)
  | global (name : String)
  /-- The object that the `k`-th instruction of a function allocates. -/
  | alloc (g : FuncId) (k : Nat)
  /-- The variable that points to a global the instruction mentions. -/
  | operand (g : FuncId) (k : Nat)
  /-- The variable for what the instruction may write. -/
  | written (g : FuncId) (k : Nat)
  | cell (name : String) (off : Nat)
  deriving DecidableEq

/-- The node under the ids of a later function. -/
def Node.shift (off : Nat) : Node → Node
  | reg g r => reg (off + g) r
  | alloc g k => alloc (off + g) k
  | operand g k => operand (off + g) k
  | written g k => written (off + g) k
  | n => n

/-- The global that is created with the node. -/
def Node.globals : Node → Finset String
  | global name | cell name _ => {name}
  | _ => ∅

/-- The constraints; `globals` are those that have an object, `known` those with an initializer. -/
@[ext]
structure Graph where
  addr : List (Node × Node)
  copy : List (Node × Node)
  gep : List (Node × Node × Nat)
  load : List (Node × Node)
  store : List (Node × Node)
  globals : Finset String
  poisoned : Finset String
  known : Finset String

namespace Graph

def empty : Graph := ⟨[], [], [], [], [], ∅, ∅, ∅⟩

/-- Every node there is: each is made for a constraint, or is a global. -/
def nodes (G : Graph) : Finset Node :=
  insert .top (((G.addr ++ G.copy ++ G.load ++ G.store).flatMap (fun c => [c.1, c.2]) ++
    G.gep.flatMap fun c => [c.1, c.2.1]).toFinset ∪ G.globals.image .global)

def count (G : Graph) : Nat := G.nodes.card

/-- The cell of a field of a global that is there, or made within the budget. -/
def cellOf (full : Nat → Bool) (G : Graph) (name : String) (off : Nat) : Node :=
  if Node.cell name off ∈ G.nodes then .cell name off
  else if full G.count then .top
  else .cell name off

/-- `intern_field`, for a global. -/
def internField (full : Nat → Bool) (G : Graph) (name : String) (off : Nat) : Node × Graph :=
  if off = anyOffset then (.top, { G with poisoned := insert name G.poisoned })
  else if off = 0 then (.global name, G)
  else (cellOf full G name off, G)

/-- The global of a node has an object as soon as the node occurs in an address. -/
def addAddr (G : Graph) (p o : Node) : Graph :=
  { G with addr := G.addr ++ [(p, o)], globals := G.globals ∪ p.globals ∪ o.globals }

end Graph

/-- What the generator asks of the graph. -/
inductive Cmd where
  | addr (p o : Node)
  | copy (dst src : Node)
  | gep (dst src : Node) (off : Nat)
  | load (dst src : Node)
  | store (value ptr : Node)
  | init (name : String) (off : Nat) (target : String)

def Cmd.shift (off : Nat) : Cmd → Cmd
  | addr p o => addr (p.shift off) (o.shift off)
  | copy d s => copy (d.shift off) (s.shift off)
  | gep d s f => gep (d.shift off) (s.shift off) f
  | load d s => load (d.shift off) (s.shift off)
  | store v p => store (v.shift off) (p.shift off)
  | init n f t => init n f t

/-- `global_field_init`, and the methods that add one constraint. -/
def Graph.exec (full : Nat → Bool) (G : Graph) : Cmd → Graph
  | .addr p o => G.addAddr p o
  | .copy d s => { G with copy := G.copy ++ [(d, s)] }
  | .gep d s off => { G with gep := G.gep ++ [(d, s, off)] }
  | .load d s => { G with load := G.load ++ [(d, s)] }
  | .store v p => { G with store := G.store ++ [(v, p)] }
  | .init name off target =>
    let (cell, G) := internField full { G with globals := insert name G.globals } name off
    { G.addAddr cell (.global target) with known := insert name G.known }

/-! ## The constraints of a module -/

/-- `operand_ptr`: the node of a pointer value, and what makes it. -/
def operandPtr (g : FuncId) (k : Nat) : Operand → List Cmd × Option Node
  | .reg r => ([], some (.reg g r))
  | .const (.symbol name) | .const (.symbolOffset name _) =>
    ([.addr (.operand g k) (.global name)], some (.operand g k))
  | .const _ => ([], none)

def poisonThrough (g : FuncId) (k : Nat) (op : Operand) : List Cmd :=
  match operandPtr g k op with
  | (cs, some p) => cs ++ [.gep (.written g k) p anyOffset]
  | (cs, none) => cs

def constByteOffset (elem : Ty) : Operand → Option Nat
  | .const (.int bv) => (checkedU64 bv.value).bind fun k =>
      checkedU64 (k * (elem.strideBytes .lp64).getD 1)
  | _ => none

/-- A use of a pointer value, if it has a node. -/
def withPtr (use : Node → Cmd) : List Cmd × Option Node → List Cmd
  | (cs, some p) => cs ++ [use p]
  | (cs, none) => cs

def instCmds (g : FuncId) (k : Nat) : Inst → List Cmd
  | .alloc dst _ _ _ _ => [.addr (.reg g dst) (.alloc g k)]
  | .assign dst _ (.use op) | .assign dst _ (.cast _ op) =>
    withPtr (.copy (.reg g dst)) (operandPtr g k op)
  | .ptrOffset dst (.reg b) index elem =>
    [.gep (.reg g dst) (.reg g b) ((constByteOffset elem index).getD anyOffset)]
  | .fieldPtr dst (.reg b) => [.gep (.reg g dst) (.reg g b) anyOffset]
  | .load dst ty (.reg p) _ => if ty.isPtr then [.load (.reg g dst) (.reg g p)] else []
  | .store _ (.reg p) value _ => withPtr (fun v => .store v (.reg g p)) (operandPtr g k value)
  | .memIntrinsic dst _ _ => poisonThrough g k dst
  | .call (some d) _ _ => [.addr (.reg g d) .top]
  | _ => []

def funcCmds (f : (FuncId × Func) × FuncId) : List Cmd :=
  (Contracts.insts f.1.2).zipIdx.flatMap fun i => instCmds f.2 i.2 i.1

/-- The initializers of constant globals. -/
def initCmds (m : Module) : List Cmd :=
  m.globalFnPtrs.entries.flatMap (fun e => e.2.filterMap fun p =>
      (Scalars.function m p.2).map fun f => .init e.1 p.1 f.name) ++
    m.globalPtrFields.entries.flatMap fun e => e.2.map fun p => .init e.1 p.1 p.2

def commands (m : Module) (base : Nat) : List Cmd :=
  initCmds m ++ (Facts.numbered m base).flatMap funcCmds

/-- A callee that is resolved at the end. -/
inductive DeferredCallee where
  | gfid (g : FuncId)
  | name (n : String)
  | opq

def DeferredCallee.shift (off : Nat) : DeferredCallee → DeferredCallee
  | gfid g => gfid (off + g)
  | c => c

/-- The deferred calls of a function. A direct callee is taken to be numbered by its position. -/
def deferredOf (base : Nat) (f : (FuncId × Func) × FuncId) :
    List (FuncId × DeferredCallee × List Operand) :=
  (Contracts.insts f.1.2).filterMap fun
    | .call _ (.direct g) args => some (f.2, .gfid (base + g), args)
    | .call _ (.symbol n) args => some (f.2, .name n, args)
    | .call _ (.indirect _) args => some (f.2, .opq, args)
    | _ => none

end ProgramPointsTo

/-- The builder; parameters and names of the functions are listed by global id. -/
structure ProgramPointsTo where
  graph : ProgramPointsTo.Graph
  next : Nat
  nameToGfid : Map String FuncId
  fnParams : List (List RegId)
  gfidMeta : List (String × Bool)
  deferred : List (FuncId × ProgramPointsTo.DeferredCallee × List Operand)
  fnNames : Finset String

namespace ProgramPointsTo

def empty : ProgramPointsTo := ⟨.empty, 0, fun _ => none, [], [], [], ∅⟩

/-- `push_module`; beyond the budget a module is dropped. -/
def push (full : Nat → Bool) (s : ProgramPointsTo) (m : Module) : ProgramPointsTo :=
  if full s.graph.count then s
  else
    { graph := (commands m s.next).foldl (Graph.exec full) s.graph
      next := s.next + m.functions.length
      nameToGfid := Facts.pushNames m s.next s.nameToGfid
      fnParams := s.fnParams ++ m.functions.map fun f => f.2.params.map Prod.fst
      gfidMeta := s.gfidMeta ++ m.functions.map fun f => (f.2.name, decide (f.1 ∈ m.internal))
      deferred := s.deferred ++ (Facts.numbered m s.next).flatMap (deferredOf s.next)
      fnNames := s.fnNames ∪ (m.functions.map fun f => f.2.name).toFinset }

/-- `remap`: only a field cell can be lost to the budget. -/
def Graph.remap (full : Nat → Bool) (off : Nat) (G : Graph) : Node → Node
  | .cell name f => cellOf full { G with globals := insert name G.globals } name f
  | n => n.shift off

/-- An address of the other builder, which is where its globals and cells occur. -/
def Graph.mergeAddr (full : Nat → Bool) (off : Nat) (G : Graph) (c : Node × Node) : Graph :=
  { G with globals := G.globals ∪ c.1.globals }.addAddr (G.remap full off c.1) (c.2.shift off)

def Graph.merge (full : Nat → Bool) (off : Nat) (G H : Graph) : Graph :=
  let G := H.addr.foldl (Graph.mergeAddr full off) G
  let pair := fun c : Node × Node => (c.1.shift off, c.2.shift off)
  { addr := G.addr
    copy := G.copy ++ H.copy.map pair
    gep := G.gep ++ H.gep.map fun c => (c.1.shift off, c.2.1.shift off, c.2.2)
    load := G.load ++ H.load.map pair
    store := G.store ++ H.store.map pair
    globals := G.globals ∪ H.poisoned
    poisoned := G.poisoned ∪ H.poisoned
    known := G.known ∪ H.known }

/-- `merge`; beyond the budget the other builder is dropped. -/
def merge (full : Nat → Bool) (s t : ProgramPointsTo) : ProgramPointsTo :=
  if full s.graph.count then s
  else
    { graph := s.graph.merge full s.next t.graph
      next := s.next + t.next
      nameToGfid := Facts.mergeNames s.next s.nameToGfid t.nameToGfid
      fnParams := s.fnParams ++ t.fnParams
      gfidMeta := s.gfidMeta ++ t.gfidMeta
      deferred := s.deferred ++ t.deferred.map fun d => (s.next + d.1, d.2.1.shift s.next, d.2.2)
      fnNames := s.fnNames ∪ t.fnNames }

def builder (full : Nat → Bool) : Builder ProgramPointsTo Module := ⟨empty, push full, merge full⟩

def overBudget (n : Nat) : Bool := decide (PointsTo.maxNodes ≤ n)

end ProgramPointsTo

/-! ## Merging the constraints of a whole program

Without the budget each command is let through a merge on its own. With it nothing changes as long as
the constraints of all modules together stay within it, since the nodes of a shard are among those.
-/

open Lib

namespace ProgramPointsTo

open PointsTo (anyOffset)

def unlimited (_ : Nat) : Bool := false

/-! ## The commands of a module -/

@[simp] theorem Node.shift_globals (off : Nat) (n : Node) : (n.shift off).globals = n.globals := by
  cases n <;> rfl

theorem Node.shift_injective (off : Nat) : Function.Injective (Node.shift off) := by
  intro a b h
  cases a <;> cases b <;> simp_all [Node.shift]

theorem operandPtr_shift (off : Nat) (g : FuncId) (k : Nat) (op : Operand) :
    operandPtr (off + g) k op =
      ((operandPtr g k op).1.map (Cmd.shift off), (operandPtr g k op).2.map (Node.shift off)) := by
  cases op with
  | reg r => rfl
  | const c => cases c <;> rfl

theorem withPtr_shift (off : Nat) {use use' : Node → Cmd} (h : ∀ n, (use n).shift off = use' (n.shift off))
    (p : List Cmd × Option Node) :
    (withPtr use p).map (Cmd.shift off) =
      withPtr use' (p.1.map (Cmd.shift off), p.2.map (Node.shift off)) := by
  obtain ⟨cs, n⟩ := p
  cases n with
  | none => rfl
  | some n =>
    simp only [withPtr, List.map_append, List.map_cons, List.map_nil, Option.map_some, h]

theorem poisonThrough_shift (off : Nat) (g : FuncId) (k : Nat) (op : Operand) :
    (poisonThrough g k op).map (Cmd.shift off) = poisonThrough (off + g) k op := by
  unfold poisonThrough
  rw [operandPtr_shift]
  generalize operandPtr g k op = p
  obtain ⟨cs, n⟩ := p
  cases n with
  | none => rfl
  | some n =>
    simp only [List.map_append, Option.map_some]
    rfl

theorem instCmds_shift (off : Nat) (g : FuncId) (k : Nat) (i : Inst) :
    (instCmds g k i).map (Cmd.shift off) = instCmds (off + g) k i := by
  cases i with
  | assign dst ty rv =>
    cases rv with
    | use op | cast _ op =>
      simp only [instCmds, operandPtr_shift]
      exact withPtr_shift off (fun _ => rfl) _
    | _ => rfl
  | ptrOffset dst base index elem => cases base <;> rfl
  | fieldPtr dst base => cases base <;> rfl
  | load dst ty ptr order =>
    cases ptr with
    | reg p =>
      simp only [instCmds]
      split <;> rfl
    | const c => rfl
  | store ty ptr value order =>
    cases ptr with
    | reg p =>
      simp only [instCmds, operandPtr_shift]
      exact withPtr_shift off (fun _ => rfl) _
    | const c => rfl
  | memIntrinsic dst src len => exact poisonThrough_shift off g k dst
  | call dst callee args => cases dst <;> rfl
  | _ => rfl

theorem initCmds_shift (off : Nat) (m : Module) : (initCmds m).map (Cmd.shift off) = initCmds m := by
  unfold initCmds
  rw [List.map_append, List.map_flatMap, List.map_flatMap]
  congr 1
  · congr 1
    funext e
    rw [List.map_filterMap]
    congr 1
    funext p
    rw [Option.map_map]
    rfl
  · congr 1
    funext e
    rw [List.map_map]
    rfl

theorem commands_shift (off base : Nat) (m : Module) :
    (commands m base).map (Cmd.shift off) = commands m (off + base) := by
  unfold commands
  rw [List.map_append, initCmds_shift, Facts.numbered_shift, List.flatMap_map, List.map_flatMap]
  congr 2
  funext f
  unfold funcCmds
  rw [List.map_flatMap]
  congr 1
  funext i
  exact instCmds_shift off f.2 i.2 i.1

theorem deferredOf_shift (off base : Nat) (f : (FuncId × Func) × FuncId) :
    (deferredOf base f).map (fun d => (off + d.1, d.2.1.shift off, d.2.2)) =
      deferredOf (off + base) (f.1, off + f.2) := by
  unfold deferredOf
  rw [List.map_filterMap]
  congr 1
  funext i
  cases i with
  | call dst callee args =>
    cases callee with
    | direct g =>
      simp only [Option.map_some, DeferredCallee.shift, Nat.add_assoc]
    | symbol n => rfl
    | indirect op => rfl
  | _ => rfl

/-! ## Merging without the budget -/

namespace Graph

theorem cellOf_unlimited (G : Graph) (name : String) (off : Nat) :
    G.cellOf unlimited name off = .cell name off := by
  unfold cellOf
  split
  · rfl
  · exact if_neg Bool.false_ne_true

theorem remap_unlimited (off : Nat) (G : Graph) (n : Node) : G.remap unlimited off n = n.shift off := by
  cases n with
  | cell name f => exact cellOf_unlimited _ name f
  | _ => rfl

/-- The globals that occur in addresses. -/
def addrGlobals (l : List (Node × Node)) : Finset String :=
  l.toFinset.biUnion fun c => c.1.globals ∪ c.2.globals

@[simp] theorem addrGlobals_nil : addrGlobals [] = ∅ := rfl

@[simp] theorem addrGlobals_append (l l' : List (Node × Node)) :
    addrGlobals (l ++ l') = addrGlobals l ∪ addrGlobals l' := by
  unfold addrGlobals
  rw [List.toFinset_append, Finset.union_biUnion]

@[simp] theorem addrGlobals_cons (c : Node × Node) (l : List (Node × Node)) :
    addrGlobals (c :: l) = c.1.globals ∪ c.2.globals ∪ addrGlobals l := by
  unfold addrGlobals
  rw [List.toFinset_cons, Finset.biUnion_insert]

def shiftPair (off : Nat) (c : Node × Node) : Node × Node := (c.1.shift off, c.2.shift off)

theorem mergeAddr_unlimited (off : Nat) (l : List (Node × Node)) (G : Graph) :
    l.foldl (mergeAddr unlimited off) G =
      { G with addr := G.addr ++ l.map (shiftPair off), globals := G.globals ∪ addrGlobals l } := by
  induction l generalizing G with
  | nil =>
    rw [List.map_nil, List.append_nil, addrGlobals_nil, Finset.union_empty]
    rfl
  | cons c l ih =>
    rw [List.foldl_cons, ih]
    have hone : G.mergeAddr unlimited off c =
        { G with addr := G.addr ++ [shiftPair off c], globals := G.globals ∪ (c.1.globals ∪ c.2.globals) } := by
      unfold mergeAddr
      rw [remap_unlimited]
      simp only [addAddr, shiftPair, Node.shift_globals, Finset.union_assoc, Finset.union_left_idem]
    rw [hone, addrGlobals_cons, List.map_cons, List.append_assoc, Finset.union_assoc]
    rfl

theorem merge_unlimited (off : Nat) (G H : Graph) : G.merge unlimited off H =
    { addr := G.addr ++ H.addr.map (shiftPair off)
      copy := G.copy ++ H.copy.map (shiftPair off)
      gep := G.gep ++ H.gep.map fun c => (c.1.shift off, c.2.1.shift off, c.2.2)
      load := G.load ++ H.load.map (shiftPair off)
      store := G.store ++ H.store.map (shiftPair off)
      globals := G.globals ∪ addrGlobals H.addr ∪ H.poisoned
      poisoned := G.poisoned ∪ H.poisoned
      known := G.known ∪ H.known } := by
  unfold merge
  rw [mergeAddr_unlimited]
  rfl

theorem merge_empty (off : Nat) (G : Graph) : G.merge unlimited off .empty = G := by
  rw [merge_unlimited]
  ext1 <;> simp [empty]

theorem merge_exec (off : Nat) (G H : Graph) (c : Cmd) :
    G.merge unlimited off (H.exec unlimited c) = (G.merge unlimited off H).exec unlimited (c.shift off) := by
  rw [merge_unlimited, merge_unlimited]
  cases c with
  | init name f target =>
    simp only [exec, internField, Cmd.shift, cellOf_unlimited]
    split
    · -- An unknown offset poisons the global.
      ext1 <;> simp [addAddr, shiftPair, Node.shift, Node.globals]
    · split
      · ext1 <;> simp [addAddr, shiftPair, Node.shift, Node.globals]
      · ext1 <;> simp [addAddr, shiftPair, Node.shift, Node.globals]
  | addr p o =>
    ext1 <;> first | simp [exec, addAddr, shiftPair, Cmd.shift]; done | (ext x; simp [exec, addAddr, Cmd.shift]; tauto)
  | copy d t | load d t | store d t | gep d t f =>
    ext1 <;> simp [exec, shiftPair, Cmd.shift]

theorem merge_foldl_exec (off : Nat) (G H : Graph) (cs : List Cmd) :
    G.merge unlimited off (cs.foldl (exec unlimited) H) =
      (cs.map (Cmd.shift off)).foldl (exec unlimited) (G.merge unlimited off H) := by
  induction cs generalizing H with
  | nil => rfl
  | cons c cs ih => rw [List.foldl_cons, ih, List.map_cons, List.foldl_cons, merge_exec]

end Graph

theorem merge_push (s t : ProgramPointsTo) (m : Module) :
    s.merge unlimited (t.push unlimited m) = (s.merge unlimited t).push unlimited m := by
  simp only [merge, push, unlimited, Bool.false_eq_true, if_false, mk.injEq]
  have hgraph := Graph.merge_foldl_exec s.next s.graph t.graph (commands m t.next)
  rw [commands_shift] at hgraph
  refine ⟨hgraph, Nat.add_assoc _ _ _ |>.symm, Facts.mergeNames_push m s.next t.next _ _,
    (List.append_assoc _ _ _).symm, (List.append_assoc _ _ _).symm, ?_, (Finset.union_assoc _ _ _).symm⟩
  rw [List.map_append, ← List.append_assoc, List.map_flatMap, Facts.numbered_shift, List.flatMap_map]
  congr 2
  funext f
  exact deferredOf_shift s.next t.next f

theorem merge_empty (s : ProgramPointsTo) : s.merge unlimited .empty = s := by
  simp only [merge, unlimited, Bool.false_eq_true, if_false]
  obtain ⟨graph, next, names, params, metas, deferred, fns⟩ := s
  simp only [mk.injEq]
  exact ⟨Graph.merge_empty next graph, rfl, Facts.mergeNames_none next names, List.append_nil _,
    List.append_nil _, List.append_nil _, Finset.union_empty _⟩

/-- **Without the budget** the constraints do not depend on the shards. -/
theorem lawful_unlimited (shards : List (List Module)) : (builder unlimited).Lawful shards :=
  Builder.Lawful.of_forall _ merge_empty merge_push shards

/-! ## Within the budget -/

namespace Graph

/-- The constraints of the first graph are among those of the second. -/
structure Sub (G H : Graph) : Prop where
  addr : G.addr ⊆ H.addr
  copy : G.copy ⊆ H.copy
  gep : G.gep ⊆ H.gep
  load : G.load ⊆ H.load
  store : G.store ⊆ H.store
  globals : G.globals ⊆ H.globals

theorem Sub.refl (G : Graph) : Sub G G :=
  ⟨List.Subset.refl _, List.Subset.refl _, List.Subset.refl _, List.Subset.refl _, List.Subset.refl _,
    Finset.Subset.refl _⟩

theorem Sub.trans {G H K : Graph} (h : Sub G H) (h' : Sub H K) : Sub G K :=
  ⟨List.Subset.trans h.addr h'.addr, List.Subset.trans h.copy h'.copy, List.Subset.trans h.gep h'.gep,
    List.Subset.trans h.load h'.load, List.Subset.trans h.store h'.store,
    Finset.Subset.trans h.globals h'.globals⟩

theorem mem_nodes {G : Graph} {n : Node} : n ∈ G.nodes ↔
    n = .top ∨ (∃ c ∈ G.addr ++ G.copy ++ G.load ++ G.store, n = c.1 ∨ n = c.2) ∨
      (∃ c ∈ G.gep, n = c.1 ∨ n = c.2.1) ∨ ∃ name ∈ G.globals, n = .global name := by
  unfold nodes
  simp only [Finset.mem_insert, Finset.mem_union, List.mem_toFinset, List.mem_append, List.mem_flatMap,
    List.mem_cons, List.not_mem_nil, or_false, Finset.mem_image, or_assoc, eq_comm (b := n)]

theorem Sub.nodes {G H : Graph} (h : Sub G H) : G.nodes ⊆ H.nodes := by
  intro n hn
  rw [mem_nodes] at hn ⊢
  rcases hn with htop | ⟨c, hc, hcn⟩ | ⟨c, hc, hcn⟩ | ⟨name, hname, hn⟩
  · exact .inl htop
  · refine .inr (.inl ⟨c, ?_, hcn⟩)
    simp only [List.mem_append] at hc ⊢
    exact hc.imp (.imp (.imp (@h.addr c) (@h.copy c)) (@h.load c)) (@h.store c)
  · exact .inr (.inr (.inl ⟨c, h.gep hc, hcn⟩))
  · exact .inr (.inr (.inr ⟨name, h.globals hname, hn⟩))

theorem Sub.count {G H : Graph} (h : Sub G H) : G.count ≤ H.count := Finset.card_le_card h.nodes

def Fits (G : Graph) : Prop := G.count < PointsTo.maxNodes

theorem Fits.of_sub {G H : Graph} (h : H.Fits) (hsub : Sub G H) : G.Fits := hsub.count.trans_lt h

theorem Fits.not_full {G : Graph} (h : G.Fits) : overBudget G.count = false :=
  decide_eq_false (Nat.not_le.mpr h)

theorem Fits.cellOf {G : Graph} (h : G.Fits) (name : String) (off : Nat) :
    G.cellOf overBudget name off = .cell name off := by
  unfold Graph.cellOf
  rw [h.not_full]
  split
  · rfl
  · exact if_neg Bool.false_ne_true

theorem sub_addAddr (G : Graph) (p o : Node) : Sub G (G.addAddr p o) :=
  { Sub.refl G with
    addr := List.subset_append_left _ _
    globals := fun _ h => Finset.mem_union_left _ (Finset.mem_union_left _ h) }

theorem sub_exec_init (G : Graph) (name target : String) (off : Nat) :
    Sub { G with globals := insert name G.globals } (G.exec unlimited (.init name off target)) := by
  have h : Sub { G with globals := insert name G.globals }
      (internField unlimited { G with globals := insert name G.globals } name off).2 := by
    unfold internField
    split
    · exact { Sub.refl _ with }
    · split <;> exact Sub.refl _
  exact { h.trans (sub_addAddr _ _ _) with }

theorem sub_exec (G : Graph) (c : Cmd) : Sub G (G.exec unlimited c) := by
  cases c with
  | addr p o => exact sub_addAddr G p o
  | copy d t => exact { Sub.refl G with copy := List.subset_append_left _ _ }
  | gep d t f => exact { Sub.refl G with gep := List.subset_append_left _ _ }
  | load d t => exact { Sub.refl G with load := List.subset_append_left _ _ }
  | store v p => exact { Sub.refl G with store := List.subset_append_left _ _ }
  | init name f target =>
    have hname : Sub G { G with globals := insert name G.globals } :=
      { Sub.refl G with globals := Finset.subset_insert _ _ }
    exact hname.trans (sub_exec_init G name target f)

theorem sub_foldl_exec (cs : List Cmd) (G : Graph) : Sub G (cs.foldl (exec unlimited) G) := by
  induction cs generalizing G with
  | nil => exact Sub.refl G
  | cons c cs ih => exact (sub_exec G c).trans (ih _)

theorem Fits.exec {G : Graph} {c : Cmd} (h : (G.exec unlimited c).Fits) :
    G.exec overBudget c = G.exec unlimited c := by
  cases c with
  | init name f target =>
    have hcell := (h.of_sub (sub_exec_init G name target f)).cellOf name f
    simp only [Graph.exec, internField, hcell, cellOf_unlimited]
  | _ => rfl

theorem Fits.foldl_exec {cs : List Cmd} {G : Graph} (h : (cs.foldl (Graph.exec unlimited) G).Fits) :
    cs.foldl (Graph.exec overBudget) G = cs.foldl (Graph.exec unlimited) G := by
  induction cs generalizing G with
  | nil => rfl
  | cons c cs ih =>
    rw [List.foldl_cons] at h
    have hc : (G.exec unlimited c).Fits := h.of_sub (sub_foldl_exec cs _)
    rw [List.foldl_cons, List.foldl_cons, hc.exec, ih h]

theorem sub_merge (off : Nat) (G H : Graph) : Sub G (G.merge unlimited off H) := by
  rw [merge_unlimited]
  exact ⟨List.subset_append_left _ _, List.subset_append_left _ _, List.subset_append_left _ _,
    List.subset_append_left _ _, List.subset_append_left _ _,
    fun _ h => Finset.mem_union_left _ (Finset.mem_union_left _ h)⟩

/-- A global with an object occurs in an address or is poisoned, so that a merge enters it again. -/
def Named (G : Graph) : Prop := G.globals ⊆ addrGlobals G.addr ∪ G.poisoned

theorem Named.exec {G : Graph} (h : Named G) (c : Cmd) : Named (G.exec unlimited c) := by
  unfold Named at h ⊢
  intro x hx
  cases c with
  | addr p o =>
    simp only [Graph.exec, addAddr, Finset.mem_union, addrGlobals_append, addrGlobals_cons,
      addrGlobals_nil] at hx ⊢
    rcases hx with (hx | hx) | hx
    · exact (Finset.mem_union.mp (h hx)).imp_left .inl
    · exact .inl (.inr (.inl (.inl hx)))
    · exact .inl (.inr (.inl (.inr hx)))
  | copy d t | gep d t f | load d t | store v p => exact h hx
  | init name f target =>
    have hold : x ∈ G.globals → x ∈ addrGlobals G.addr ∨ x ∈ G.poisoned := fun hx =>
      Finset.mem_union.mp (h hx)
    simp only [Graph.exec, internField, cellOf_unlimited] at hx ⊢
    -- The name is new: it is poisoned, or it occurs in the address as the global or as its cell.
    split at hx
    · simp_all [addAddr, Node.globals]
      tauto
    · split at hx
      · simp_all [addAddr, Node.globals]
        tauto
      · simp_all [addAddr, Node.globals]
        tauto

theorem Named.foldl_exec {G : Graph} (h : Named G) (cs : List Cmd) :
    Named (cs.foldl (Graph.exec unlimited) G) := by
  induction cs generalizing G with
  | nil => exact h
  | cons c cs ih => exact ih (h.exec c)

theorem shift_mem_nodes {off : Nat} {G H : Graph} (h : Named H) {n : Node} (hn : n ∈ H.nodes) :
    n.shift off ∈ (G.merge unlimited off H).nodes := by
  have hpair {l l' : List (Node × Node)} {c : Node × Node} (hc : c ∈ l) :
      shiftPair off c ∈ l' ++ l.map (shiftPair off) :=
    List.mem_append_right _ (List.mem_map_of_mem hc)
  rw [merge_unlimited]
  rw [mem_nodes] at hn ⊢
  rcases hn with rfl | ⟨c, hc, hcn⟩ | ⟨c, hc, hcn⟩ | ⟨name, hname, rfl⟩
  · exact .inl rfl
  · refine .inr (.inl ⟨shiftPair off c, ?_, ?_⟩)
    · simp only [List.mem_append] at hc
      rcases hc with ((hc | hc) | hc) | hc
      · exact List.mem_append_left _ (List.mem_append_left _ (List.mem_append_left _ (hpair hc)))
      · exact List.mem_append_left _ (List.mem_append_left _ (List.mem_append_right _ (hpair hc)))
      · exact List.mem_append_left _ (List.mem_append_right _ (hpair hc))
      · exact List.mem_append_right _ (hpair hc)
    · exact hcn.imp (congrArg (Node.shift off)) (congrArg (Node.shift off))
  · refine .inr (.inr (.inl ⟨(c.1.shift off, c.2.1.shift off, c.2.2), ?_, ?_⟩))
    · exact List.mem_append_right _ (List.mem_map_of_mem hc)
    · exact hcn.imp (congrArg (Node.shift off)) (congrArg (Node.shift off))
  · refine .inr (.inr (.inr ⟨name, ?_, rfl⟩))
    have := h hname
    simp only [Finset.mem_union] at this ⊢
    exact this.elim (fun h => .inl (.inr h)) .inr

theorem count_le_merge {off : Nat} {G H : Graph} (h : Named H) :
    H.count ≤ (G.merge unlimited off H).count := by
  unfold count
  rw [← Finset.card_image_of_injective H.nodes (Node.shift_injective off)]
  apply Finset.card_le_card
  intro n hn
  obtain ⟨m, hm, rfl⟩ := Finset.mem_image.mp hn
  exact shift_mem_nodes h hm

theorem sub_mergeAddr (off : Nat) (l : List (Node × Node)) (G : Graph) :
    Sub G (l.foldl (mergeAddr unlimited off) G) := by
  rw [mergeAddr_unlimited]
  exact { Sub.refl G with
    addr := List.subset_append_left _ _
    globals := Finset.subset_union_left }

theorem Fits.mergeAddr {off : Nat} {l : List (Node × Node)} {G : Graph}
    (h : (l.foldl (Graph.mergeAddr unlimited off) G).Fits) :
    l.foldl (Graph.mergeAddr overBudget off) G = l.foldl (Graph.mergeAddr unlimited off) G := by
  induction l generalizing G with
  | nil => rfl
  | cons c l ih =>
    rw [List.foldl_cons] at h
    have hstep : G.mergeAddr overBudget off c = G.mergeAddr unlimited off c := by
      obtain ⟨p, o⟩ := c
      cases p with
      | cell name f =>
        -- The name of the global is entered before its cell.
        have hname : Sub { G with globals := insert name G.globals }
            (G.mergeAddr unlimited off (.cell name f, o)) :=
          { sub_addAddr _ _ _ with
            globals := fun x hx => by
              apply Finset.mem_union_left
              apply Finset.mem_union_left
              rw [Finset.union_comm]
              exact hx }
        have hcell := (h.of_sub (hname.trans (sub_mergeAddr off l _))).cellOf name f
        simp only [Graph.mergeAddr, remap, hcell, cellOf_unlimited]
      | _ => rfl
    rw [List.foldl_cons, List.foldl_cons, hstep, ih h]

theorem Fits.merge {off : Nat} {G H : Graph} (h : (G.merge unlimited off H).Fits) :
    G.merge overBudget off H = G.merge unlimited off H := by
  -- Only the addresses make cells, and what they make is part of the merged graph.
  have haddr : (H.addr.foldl (Graph.mergeAddr unlimited off) G).Fits := by
    apply h.of_sub
    rw [merge_unlimited, mergeAddr_unlimited]
    exact ⟨List.Subset.refl _, List.subset_append_left _ _, List.subset_append_left _ _,
      List.subset_append_left _ _, List.subset_append_left _ _, Finset.subset_union_left⟩
  unfold Graph.merge
  rw [haddr.mergeAddr]

end Graph

theorem named_build (ms : List Module) : ((builder unlimited).build ms).graph.Named := by
  induction ms using List.reverseRecOn with
  | nil => exact Finset.empty_subset _
  | append_singleton ms m ih =>
    rw [Builder.build_snoc]
    simp only [builder, push, unlimited, Bool.false_eq_true, if_false]
    exact ih.foldl_exec _

theorem within_budget :
    Builder.Within (builder overBudget) (builder unlimited) (fun s => s.graph.Fits) where
  empty := rfl
  push := by
    intro s m h
    simp only [builder, push, unlimited, Bool.false_eq_true, if_false] at h
    have hs : s.graph.Fits := h.of_sub (Graph.sub_foldl_exec _ _)
    refine ⟨hs, ?_⟩
    simp only [builder, push, hs.not_full, unlimited, Bool.false_eq_true, if_false, mk.injEq, and_true]
    exact h.foldl_exec
  merge := by
    intro s ys h
    have hnamed := named_build ys
    generalize (builder unlimited).build ys = t at h hnamed ⊢
    simp only [builder, merge, unlimited, Bool.false_eq_true, if_false] at h
    have hs : s.graph.Fits := h.of_sub (Graph.sub_merge _ _ _)
    refine ⟨hs, (Graph.count_le_merge hnamed).trans_lt h, ?_⟩
    simp only [builder, merge, hs.not_full, unlimited, Bool.false_eq_true, if_false, mk.injEq, and_true]
    exact h.merge

theorem sharded_eq_build {shards : List (List Module)}
    (h : ((builder unlimited).build shards.flatten).graph.Fits) :
    (builder overBudget).sharded shards = (builder overBudget).build shards.flatten :=
  within_budget.sharded_eq_build (lawful_unlimited shards) h

end ProgramPointsTo

end Csolver
