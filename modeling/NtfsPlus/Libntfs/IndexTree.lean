import NtfsPlus.Lib.BlockTree
import NtfsPlus.Libntfs.Collate
import NtfsPlus.Libntfs.RunlistBasic

/-!
# Indexes as trees of entries

The state that `libntfs/index.c` works on, on the level of index entries.  A
node is the list of its entries up to and including the end entry; an entry
has a key and possibly a sub-node.  Index blocks are numbered the way the index
bitmap numbers them.  Of the byte layout of a node there remain the lengths of
its entries and the room there is for them.
-/

namespace NtfsPlus.Libntfs

open BlockTree

section Model

/-- An index entry without its sub-node VCN. -/
structure IndexEntry where
  key : List UInt8
  /-- The file reference or the data part. -/
  data : List UInt8
  /-- `ie->length`, as it is without a VCN. -/
  length : Nat
deriving DecidableEq, Repr

/-- An index root or an index block. -/
structure IndexNode where
  items : List (Item IndexEntry)
  /-- `ih_flags & NODE_MASK`: `INDEX_NODE`, in the root `LARGE_INDEX`. -/
  isNode : Bool
  /-- `allocated_size` less `entries_offset`. -/
  room : Nat
deriving DecidableEq, Repr

/-- An index of an inode. -/
structure Index where
  rule : CollationRule
  up : Upcase
  root : IndexNode
  /-- The index allocation. -/
  blocks : Nat → Option IndexNode
  /-- The index bitmap; empty if there is none. -/
  bitmap : List Bool
  /-- The room for entries in a new index block. -/
  blockRoom : Nat
  /-- Whether the coming calls that enlarge the root find the MFT record full. -/
  filled : Nat → Bool

/-- The root, or a block. -/
def Index.node (idx : Index) : Option Nat → Option IndexNode
  | none => some idx.root
  | some v => idx.blocks v

/-- The entries of the root and the blocks. -/
def Index.content (idx : Index) : Content IndexEntry :=
  fun x => (idx.node x).map IndexNode.items

end Model

section WellFormed

/-- Entry `a` stands before entry `b`. -/
def EntryLess (rule : CollationRule) (up : Upcase) (a b : IndexEntry) : Prop :=
  KeyLess rule up a.key b.key

/-- A node ends with its only end entry, and has sub-nodes everywhere or nowhere. -/
structure NodeOk (n : IndexNode) : Prop where
  shape : ∃ keyed last, n.items = keyed ++ [⟨none, last⟩] ∧ ∀ it ∈ keyed, it.entry ≠ none
  subs : ∀ it ∈ n.items, it.sub.isSome = n.isNode

/--
A well-formed index with the entries `es`, in order, and the blocks `bs`: the
tree is complete and at most `levels` blocks deep, its keys ascend strictly and
every block is referenced once.
-/
structure TreeOk (idx : Index) (levels : Nat) (es : List IndexEntry) (bs : List Nat) : Prop where
  walk : Walk idx.content levels idx.root.items es bs
  sorted : es.Pairwise (EntryLess idx.rule idx.up)
  nodup : bs.Nodup
  rootOk : NodeOk idx.root
  blocksOk : ∀ v n, v ∈ bs → idx.blocks v = some n → NodeOk n

end WellFormed

end NtfsPlus.Libntfs
