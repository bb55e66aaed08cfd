import Mathlib.Order.Lattice
import Glean.RTS.Fact

/-! Sets of 32-bit numbers as blocks of 256 (`setu32.h`, `setu32.cpp`). Each block has a header,
and sparse and dense blocks have their elements in arrays that all blocks share. Iterators are
positions in the three arrays.
-/

namespace Glean.RTS

abbrev Bits256 := BitVec 256

namespace Bits256

def none : Bits256 := 0#256

def all : Bits256 := BitVec.allOnes 256

def single (n : Byte) : Bits256 := 1#256 <<< n.val

/-- `with` -/
def withVals (bits : Bits256) (vals : List Byte) : Bits256 :=
  vals.foldl (fun bits val => bits ||| single val) bits

def ofVals (vals : List Byte) : Bits256 := none.withVals vals

def includes (bits other : Bits256) : Bool := ~~~bits &&& other == 0#256

def contains (bits : Bits256) (n : Byte) : Bool := bits &&& single n != 0#256

end Bits256

/-- `Hdr`: the block id in the upper 24 bits, the number of elements of a sparse block in six
bits, and the type in two.
-/
structure Hdr where
  value : Nat
  deriving DecidableEq

namespace Hdr

inductive HdrType where
  | sparse
  | dense
  | full
  deriving DecidableEq

def ofType (id len type : Nat) : Hdr := ⟨(id <<< 8) ||| ((len <<< 2) ||| type)⟩

def sparse (id len : Nat) : Hdr := ofType id len 0

def dense (id : Nat) : Hdr := ofType id 0 1

def full (id : Nat) : Hdr := ofType id 0 2

def id (hdr : Hdr) : Nat := hdr.value >>> 8

/-- The type; no header has both of its bits set. -/
def type (hdr : Hdr) : HdrType :=
  if hdr.value % 4 = 0 then .sparse else if hdr.value % 4 = 1 then .dense else .full

/-- Zero for blocks that are not sparse. -/
def sparseLen (hdr : Hdr) : Nat := (hdr.value >>> 2) % 64

def denseLen (hdr : Hdr) : Nat := hdr.value % 2

def addSparseLen (hdr : Hdr) (n : Nat) : Hdr := ⟨hdr.value + (n <<< 2)⟩

def before (hdr : Hdr) (id : Nat) : Bool := hdr.value < id <<< 8

end Hdr

/-- A block with what its pointers into the arrays point to. -/
structure Block where
  hdr : Hdr
  dense : List Bits256
  sparse : List Byte

namespace Block

def vals (block : Block) : List Byte := block.sparse.take block.hdr.sparseLen

def bits (block : Block) : Bits256 := block.dense.headD Bits256.none

/-- `operator==` -/
def eq (block other : Block) : Bool :=
  block.hdr = other.hdr
    && match block.hdr.type with
      | .sparse => block.vals = other.sparse.take block.hdr.sparseLen
      | .dense => block.bits = other.bits
      | .full => true

/-- `std::includes` of ascending ranges -/
def stdIncludes : List Byte → List Byte → Bool
  | _, [] => true
  | [], _ :: _ => false
  | first :: rest, other :: others =>
      if other < first then false
      else if first < other then stdIncludes rest (other :: others)
      else stdIncludes rest others

def includes (block other : Block) : Bool :=
  block.hdr.id = other.hdr.id
    && match block.hdr.type, other.hdr.type with
      | .sparse, .sparse => stdIncludes block.vals other.vals
      | .sparse, _ => false
      | .dense, .sparse => other.vals.all (fun val => block.bits.contains val)
      | .dense, .dense => block.bits.includes other.bits
      | .dense, .full => false
      | .full, _ => true

/-- The elements of a block that `foreach` goes through. -/
def elements (block : Block) : List Byte :=
  match block.hdr.type with
  | .sparse => block.vals
  | .dense => (List.finRange 256).filter (fun n => block.bits.contains n)
  | .full => List.finRange 256

end Block

/-- `const_iterator` -/
structure Iter where
  hdrs : Nat
  dense : Nat
  sparse : Nat
  deriving DecidableEq

structure SetU32 where
  hdrs : List Hdr
  dense : List Bits256
  sparse : List Byte
  deriving DecidableEq

namespace SetU32

def empty : SetU32 := ⟨[], [], []⟩

/-- `operator==` -/
def eq (set other : SetU32) : Bool :=
  set.hdrs = other.hdrs && set.dense = other.dense && set.sparse = other.sparse

/-- `hash`, where `xxh64` hashes the words of an array. -/
def hash (xxh64 : List Nat → Nat → Nat) (set : SetU32) (seed : Nat) : Nat :=
  xxh64 (set.sparse.map Fin.val)
    (xxh64 (set.dense.map BitVec.toNat) (xxh64 (set.hdrs.map Hdr.value) seed))

def start : Iter := ⟨0, 0, 0⟩

/-- `end` -/
def finish (set : SetU32) : Iter := ⟨set.hdrs.length, set.dense.length, set.sparse.length⟩

def hdrAt (set : SetU32) (iter : Iter) : Hdr := set.hdrs.getD iter.hdrs ⟨0⟩

def block (set : SetU32) (iter : Iter) : Block :=
  ⟨set.hdrAt iter, set.dense.drop iter.dense, set.sparse.drop iter.sparse⟩

/-- `operator++` -/
def next (set : SetU32) (iter : Iter) : Iter :=
  ⟨iter.hdrs + 1, iter.dense + (set.hdrAt iter).denseLen,
    iter.sparse + (set.hdrAt iter).sparseLen⟩

/-- The blocks of a set, one position after the other. -/
def blocksFrom (set : SetU32) : Nat → Iter → List Block
  | 0, _ => []
  | count + 1, iter => set.block iter :: blocksFrom set count (set.next iter)

/-- The numbers that `foreach` goes through. -/
def values (set : SetU32) : List Nat :=
  (set.blocksFrom set.hdrs.length start).flatMap
    (fun block => block.elements.map (fun bit => (block.hdr.id <<< 8) ||| bit.val))

/-- The headers, dense and sparse elements between two positions. -/
def slice {α : Type} (list : List α) (first last : Nat) : List α :=
  (list.drop first).take (last - first)

/-- `lower_bound`: the arrays are followed from the nearer end. -/
def lowerBound (set : SetU32) (first last : Iter) (id : Nat) : Iter :=
  let hdrs := slice set.hdrs first.hdrs last.hdrs
  let l := (hdrs.takeWhile (fun hdr => hdr.before id)).length
  let r := hdrs.length - l
  if l ≤ r then
    let passed := hdrs.take l
    ⟨first.hdrs + l, first.dense + (passed.map Hdr.denseLen).sum,
      first.sparse + (passed.map Hdr.sparseLen).sum⟩
  else
    let ahead := hdrs.drop l
    ⟨first.hdrs + l, last.dense - (ahead.map Hdr.denseLen).sum,
      last.sparse - (ahead.map Hdr.sparseLen).sum⟩

def fitsSparse (m n : Nat) : Bool := m + n < 32

/-- Append to a sparse last block with this header. -/
def appendSparse (set : SetU32) (hdr : Hdr) (block : Nat) (bit : Byte) : Option SetU32 :=
  match set.sparse.getLast? with
  | none => none
  | some last =>
      if bit < last then none
      else if bit = last then some set
      else
        let len := hdr.sparseLen
        if fitsSparse len 1 then
          some {
            hdrs := set.hdrs.dropLast ++ [hdr.addSparseLen 1]
            dense := set.dense
            sparse := set.sparse ++ [bit] }
        else
          let kept := set.sparse.length - len
          some {
            hdrs := set.hdrs.dropLast ++ [.dense block]
            dense := set.dense ++ [Bits256.ofVals (set.sparse.drop kept) ||| Bits256.single bit]
            sparse := set.sparse.take kept }

/-- Append to a dense last block. -/
def appendDense (set : SetU32) (block : Nat) (bit : Byte) : Option SetU32 :=
  match set.dense.getLast? with
  | none => none
  | some last =>
      let bits := last ||| Bits256.single bit
      if bits = Bits256.all then
        some {
          hdrs := set.hdrs.dropLast ++ [.full block]
          dense := set.dense.dropLast
          sparse := set.sparse }
      else
        some { set with dense := set.dense.dropLast ++ [bits] }

def appendBlock (set : SetU32) (block : Nat) (bit : Byte) : SetU32 :=
  { set with hdrs := set.hdrs ++ [.sparse block 1], sparse := set.sparse ++ [bit] }

/-- `append` of a value. There is nothing where an assertion fails. -/
def append (set : SetU32) (value : Nat) : Option SetU32 :=
  let block := value / 256
  let bit := Fin.ofNat 256 value
  match set.hdrs.getLast? with
  | none => some (set.appendBlock block bit)
  | some hdr =>
      if hdr.id = block then
        match hdr.type with
        | .sparse => set.appendSparse hdr block bit
        | .dense => set.appendDense block bit
        | .full => if bit = 255 then some set else none
      else
        some (set.appendBlock block bit)

/-- `append` of the blocks of a set between two iterators -/
def appendRange (set source : SetU32) (first last : Iter) : SetU32 where
  hdrs := set.hdrs ++ slice source.hdrs first.hdrs last.hdrs
  dense := set.dense ++ slice source.dense first.dense last.dense
  sparse := set.sparse ++ slice source.sparse first.sparse last.sparse

/-- `append` of bits -/
def appendBits (set : SetU32) (id : Nat) (bits : Bits256) : SetU32 :=
  if bits = Bits256.all then
    { set with hdrs := set.hdrs ++ [.full id] }
  else
    { set with hdrs := set.hdrs ++ [.dense id], dense := set.dense ++ [bits] }

/-- `fromEliasFano`, of the values that the reader of the list goes through -/
def fromEliasFano (values : List Nat) : Option SetU32 :=
  values.foldlM append empty

/-- The loop of `mergeSparse`: what it appends, and what is left of both sides. -/
def mergeLoop (merged : List Byte) : List Byte → List Byte → List Byte × List Byte × List Byte
  | [], rs => (merged, [], rs)
  | ls, [] => (merged, ls, [])
  | l :: ls, r :: rs =>
      if fitsSparse merged.length 1 then
        if l < r then mergeLoop (merged ++ [l]) ls (r :: rs)
        else if r < l then mergeLoop (merged ++ [r]) (l :: ls) rs
        else mergeLoop (merged ++ [l]) ls rs
      else
        (merged, l :: ls, r :: rs)
  termination_by ls rs => ls.length + rs.length

def mergeSparse (set : SetU32) (id : Nat) (ls rs : List Byte) : SetU32 :=
  let (merged, ls, rs) := mergeLoop [] ls rs
  if fitsSparse merged.length (ls.length + rs.length) then
    { set with
      hdrs := set.hdrs ++ [.sparse id (merged.length + ls.length + rs.length)]
      sparse := set.sparse ++ merged ++ ls ++ rs }
  else
    { set with
      hdrs := set.hdrs ++ [.dense id]
      dense := set.dense ++ [((Bits256.ofVals merged).withVals ls).withVals rs] }

/-- `appendMerge` of two blocks -/
def mergeBlock (set : SetU32) (left right : Block) : SetU32 :=
  match left.hdr.type, right.hdr.type with
  | .sparse, .sparse => set.mergeSparse left.hdr.id left.vals right.vals
  | .sparse, .dense => set.appendBits left.hdr.id (right.bits.withVals left.vals)
  | .sparse, .full => { set with hdrs := set.hdrs ++ [right.hdr] }
  | .dense, .sparse => set.appendBits left.hdr.id (left.bits.withVals right.vals)
  | .dense, .dense => set.appendBits left.hdr.id (left.bits ||| right.bits)
  | .dense, .full => { set with hdrs := set.hdrs ++ [right.hdr] }
  | .full, _ => { set with hdrs := set.hdrs ++ [left.hdr] }

/-- `appendMerge` of the blocks behind two iterators; each step passes a block. -/
def appendMerge (left right : SetU32) : Nat → SetU32 → Iter → Iter → SetU32
  | 0, set, _, _ => set
  | fuel + 1, set, l, r =>
      if l.hdrs ≠ left.hdrs.length ∧ r.hdrs ≠ right.hdrs.length then
        let leftId := (left.hdrAt l).id
        let rightId := (right.hdrAt r).id
        if leftId < rightId then
          let l' := left.lowerBound l left.finish rightId
          appendMerge left right fuel (set.appendRange left l l') l' r
        else if rightId < leftId then
          let r' := right.lowerBound r right.finish leftId
          appendMerge left right fuel (set.appendRange right r r') l r'
        else
          appendMerge left right fuel (set.mergeBlock (left.block l) (right.block r))
            (left.next l) (right.next r)
      else
        (set.appendRange left l left.finish).appendRange right r right.finish

/-- The first loop of `skipSubset`: blocks that are equal. -/
def skipEqual (left right : SetU32) : Nat → Iter → Iter → Iter × Iter
  | 0, l, r => (l, r)
  | fuel + 1, l, r =>
      if (l.hdrs ≠ left.hdrs.length ∧ r.hdrs ≠ right.hdrs.length)
          ∧ (left.block l).eq (right.block r) then
        skipEqual left right fuel (left.next l) (right.next r)
      else
        (l, r)

/-- The last loop of `skipSubset`: blocks of the right set that the left set includes. -/
def skipIncluded (left right : SetU32) : Nat → Iter → Iter → Iter × Iter
  | 0, l, r => (l, r)
  | fuel + 1, l, r =>
      if l.hdrs ≠ left.hdrs.length ∧ r.hdrs ≠ right.hdrs.length then
        if (left.hdrAt l).id < (right.hdrAt r).id then
          skipIncluded left right fuel (left.lowerBound l left.finish (right.hdrAt r).id) r
        else if (left.block l).includes (right.block r) then
          skipIncluded left right fuel (left.next l) (right.next r)
        else
          (l, r)
      else
        (l, r)

/-- The part of `skipSubset` between its loops: whether the sets are swapped, and the positions in
the left and the right one.
-/
def swapSides (left right : SetU32) (l r : Iter) : Bool × Iter × Iter :=
  if r.hdrs ≠ right.hdrs.length then
    if l.hdrs = left.hdrs.length ∨ (right.hdrAt r).id < (left.hdrAt l).id then
      (true, l, r)
    else if (right.block r).includes (left.block l) then
      (true, left.next l, right.next r)
    else
      (false, l, r)
  else
    (false, l, r)

/-- `skipSubset`: whether the sets are swapped, and the positions in the first and the second one
after that.
-/
def skipSubset (left right : SetU32) : Bool × Iter × Iter :=
  let fuel := left.hdrs.length + right.hdrs.length
  let (l, r) := skipEqual left right fuel start start
  let (swapped, l, r) := swapSides left right l r
  if swapped then
    (true, skipIncluded right left fuel r l)
  else
    (false, skipIncluded left right fuel l r)

/-- The set that the pointer returned by `merge` points to. -/
inductive Pointer where
  | left
  | right
  | result
  deriving DecidableEq

/-- `merge` into an empty set, and what it holds afterwards. `same` says whether both arguments
are the same object.
-/
def merge (same : Bool) (left right : SetU32) : Pointer × SetU32 :=
  if same then
    (.left, empty)
  else
    let (swapped, l, r) := skipSubset left right
    let super := if swapped then right else left
    let sub := if swapped then left else right
    if r.hdrs = sub.hdrs.length then
      (if swapped then .right else .left, empty)
    else
      (.result,
        appendMerge super sub (super.hdrs.length + sub.hdrs.length + 1)
          (empty.appendRange super start l) l r)

end SetU32

end Glean.RTS
