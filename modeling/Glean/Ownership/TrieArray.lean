import Glean.Library.BlockTree
import Glean.Ownership.Uset
import Glean.RTS.Fact

/-! The trie that maps ranges of fact ids to ownership sets (`triearray.h`). The trees point to
`Uset` objects and own a reference to them each.
-/

namespace Glean.RTS

/-- The memory in which `Uset` objects are allocated. -/
structure Heap where
  objects : Addr → Option Uset
  fresh : Addr

namespace Heap

def empty : Heap := ⟨fun _ => none, 0⟩

def alloc (heap : Heap) (uset : Uset) : Heap × Addr :=
  (⟨Function.update heap.objects heap.fresh (some uset), heap.fresh + 1⟩, heap.fresh)

def modify (heap : Heap) (addr : Addr) (f : Uset → Uset) : Heap :=
  { heap with objects := Function.update heap.objects addr ((heap.objects addr).map f) }

/-- `Uset::use`. -/
def use (heap : Heap) (addr : Addr) (refs : Int) : Heap :=
  heap.modify addr (fun uset => { uset with refs := uset.refs + refs })

def setLink (heap : Heap) (addr : Addr) (link : Link) : Heap :=
  heap.modify addr (fun uset => { uset with link := link })

end Heap

/-- A `Tree` that is not a forest. While `insert` runs, a tree may be on the list that starts
at the link of a value, or at `null_link`; it is then marked with the owner of the list in place
of the pointer to the next tree.
-/
inductive TreePtr where
  | null
  | value (addr : Addr)
  | link (owner : Option Addr)
  deriving DecidableEq

/-- The trees below `FANOUT_TOP` blocks of `BLOCK` keys. -/
abbrev Trees := Fin 65536 → BlockTree 16 TreePtr 4

/-- `TrieArray<Uset>`. -/
structure TrieArray where
  trees : Trees
  minkey : Nat
  maxkey : Nat

namespace Trees

@[irreducible]
def leaves (trees : Trees) : Multiset (Leaf TreePtr) :=
  BlockTree.rowLeaves trees

def map (trees : Trees) (f : TreePtr → TreePtr) : Trees :=
  fun block => (trees block).map f

/-- `traverse(start, size, f)`. -/
@[irreducible]
def traverse {State : Type} (visit : BlockTree.Visit TreePtr State) (state : State)
    (trees : Trees) (start size : Nat)
    : State × Trees :=
  BlockTree.traverseRow visit state trees start size

theorem leaves_map (trees : Trees) (f : TreePtr → TreePtr)
    : (trees.map f).leaves = trees.leaves.map (fun leaf => leaf.put (f leaf.value)) := by
  unfold leaves
  exact BlockTree.rowLeaves_map f trees

/-- Visiting a range of the trie keeps every invariant of its calls. -/
theorem traverse_keeps {State : Type} {visit : BlockTree.Visit TreePtr State}
    {Inv : State → Multiset (Leaf TreePtr) → Nat → Prop} {start size : Nat}
    (keeps : BlockTree.Keeps 16 visit start (start + size) Inv)
    (fits : start + size ≤ 2 ^ 32) {state next : State} {trees treesNext : Trees}
    (holds : Inv state trees.leaves start)
    (visited : Trees.traverse visit state trees start size = (next, treesNext))
    : Inv next treesNext.leaves (start + size) := by
  unfold leaves at holds ⊢
  unfold traverse at visited
  exact BlockTree.traverseRow_keeps keeps fits holds visited

theorem mem_leaves_const {trees : Trees} {value : TreePtr} {leaf : Leaf TreePtr}
    (same : ∀ block, trees block = .leaf value) (member : leaf ∈ trees.leaves)
    : leaf.value = value := by
  unfold leaves at member
  exact BlockTree.mem_rowLeaves_const same member

end Trees

namespace TrieArray

def new : TrieArray where
  trees := fun _ => .leaf .null
  minkey := 2 ^ 64 - 1
  maxkey := 0

/-- `traverse(f)`: all keys between the smallest and the largest. -/
def traverse {State : Type} (visit : BlockTree.Visit TreePtr State) (state : State)
    (trie : TrieArray)
    : State × TrieArray :=
  if trie.minkey ≤ trie.maxkey then
    let (state, trees) :=
      Trees.traverse visit state trie.trees trie.minkey (trie.maxkey - trie.minkey + 1)
    (state, { trie with trees := trees })
  else
    (state, trie)

theorem leaves_new (leaf : Leaf TreePtr) (member : leaf ∈ TrieArray.new.trees.leaves)
    : leaf.value = .null :=
  Trees.mem_leaves_const (fun _ => rfl) member

/-- The locals of `insert`: the values seen, and the list that starts at `null_link`. -/
structure Inserting where
  heap : Heap
  values : List Addr
  nullLink : List Nat

/-- The function that `insert` calls on each tree of a range. Ranges do not overlap, so no tree
is reached that is on a list already.
-/
def insertVisit (state : Inserting) (tree : TreePtr) (key size block : Nat)
    : Inserting × Option TreePtr :=
  if size = block then
    match tree with
    | .value addr =>
        match (state.heap.objects addr).map Uset.link with
        | some (.trees keys) =>
            ({ state with heap := (state.heap.setLink addr (.trees (key :: keys))).use addr (-1) },
              some (.link (some addr)))
        | _ =>
            ({ state with
                heap := state.heap.setLink addr (.trees [key])
                values := state.values ++ [addr] },
              some (.link (some addr)))
    | _ => ({ state with nullLink := key :: state.nullLink }, some (.link none))
  else
    match tree with
    | .value addr => ({ state with heap := state.heap.use addr 15 }, none)
    | _ => (state, none)

def insertRange (state : Inserting × Trees) (range : Id × Id) : Inserting × Trees :=
  if range.1 ≤ range.2 then
    Trees.traverse insertVisit state.1 state.2 range.1 (range.2 - range.1 + 1)
  else
    state

/-- `unlink`: store the new value in the trees of a list, and count them. -/
def unlink (get : Heap → Option Addr → Int → Heap × Addr) (state : Heap × Trees)
    (owner : Option Addr) (keys : List Nat)
    : Heap × Trees :=
  let (heap, upd) := get state.1 owner 1
  (heap.use upd (keys.length - 1),
    state.2.map (fun tree => if tree = .link owner then .value upd else tree))

/-- `unlink` for one of the values seen, whose link is reset before. -/
def unlinkValue (get : Heap → Option Addr → Int → Heap × Addr) (state : Heap × Trees)
    (addr : Addr)
    : Heap × Trees :=
  match (state.1.objects addr).map Uset.link with
  | some (.trees keys) => unlink get (state.1.setLink addr .null, state.2) (some addr) keys
  | _ => state

/-- `TrieArray::insert`. Keys that do not fit into 32 bits abort. -/
def insert (trie : TrieArray) (heap : Heap) (ids : List (Id × Id))
    (get : Heap → Option Addr → Int → Heap × Addr)
    : Option (Heap × TrieArray) :=
  match ids.head?, ids.getLast? with
  | some first, some last =>
      let minkey := min trie.minkey first.1
      let maxkey := max trie.maxkey last.2
      if 2 ^ 32 ≤ maxkey then
        none
      else
        let (state, trees) := ids.foldl insertRange (⟨heap, [], []⟩, trie.trees)
        let unlinked :=
          if state.nullLink = [] then
            (state.heap, trees)
          else
            unlink get (state.heap, trees) none state.nullLink
        let (heap, trees) := state.values.foldl (unlinkValue get) unlinked
        some (heap, ⟨trees, minkey, maxkey⟩)
  | _, _ => some (heap, trie)

end TrieArray

end Glean.RTS
