import Userfs.Filesystem.Store

namespace Userfs.Filesystem

open Word

/-!
# The read cache

File data that was read from an SSD stays in memory.  Each inode has a hash table
from block numbers to cached blocks, and one list orders the blocks of all inodes by
their last use.  The counter `n` is meant to be the number of cached 4 KiB blocks;
when it passes its maximum, blocks are dropped from the end of the list.

Cached blocks and data buffers live on the heap.  The model never gives out an
address twice, so an access to freed memory is always noticed; it stops the
process.  Every block is made by `add_to_read_cache`, so its field `log_addr` is zero
and `is_data_cached` is set.
-/

/-- `g_max_read_cache_blocks`, 8 GB in blocks of 4 KiB. -/
def gMaxReadCacheBlocks : Nat := 2 * 2 ^ 20

/-- `struct fcache_block`: the inode it was cached for, the number of its first
file block, its size in bytes, and the address of its data. -/
structure FcacheBlock where
  ip : Nat
  key : Nat
  size : Nat
  data : Nat
deriving DecidableEq, Repr

/-- The bookkeeping of the cache: the blocks on the heap, the hash tables of the
inodes, and `g_fcache_head` with the most recent block first. -/
structure CacheIndex where
  block : Nat -> Option FcacheBlock
  hash : Nat -> Nat -> Option Nat
  lru : List Nat
  n : Nat

/-- A call of `add_to_read_cache` with the bookkeeping it started from. -/
structure Insertion where
  before : CacheIndex
  ip : Nat
  off : Nat
  size : Nat

/-- The read cache with its data buffers.  The insertions made so far are kept
for observation only. -/
structure ReadCache extends CacheIndex where
  blockEnd : Nat
  buffer : Nat -> Option (Nat -> UInt8)
  bufferEnd : Nat
  insertions : List Insertion

/-- The cache after `cache_init`. -/
def ReadCache.empty : ReadCache where
  block := fun _ => none
  hash := fun _ _ => none
  lru := []
  n := 0
  blockEnd := 0
  buffer := fun _ => none
  bufferEnd := 0
  insertions := []

/-- Programs on the read cache. -/
abbrev Cached := EStateM Fault ReadCache

/-- Change one entry of a hash table. -/
def CacheIndex.setHash (index : CacheIndex) (ip key : Nat) (entry : Option Nat) :
    Nat -> Nat -> Option Nat :=
  Function.update index.hash ip (Function.update (index.hash ip) key entry)

/-- Follow a pointer to a cached block. -/
def derefBlock (address : Nat) : Cached FcacheBlock := do
  let cache ← get
  match cache.block address with
  | some block => pure block
  | none => throw .segfault

/-- `fcache_find`. -/
def fcacheFind (ip key : Nat) : Cached (Option Nat) := do
  let cache ← get
  pure (cache.hash ip key)

/-- `fcache_alloc_add`: a new block without data. -/
def fcacheAllocAdd (ip key : Nat) : Cached Nat := do
  let cache ← get
  modify (fun cache =>
    { cache with
      block := Function.update cache.block cache.blockEnd (some ⟨ip, key, 0, 0⟩)
      hash := cache.setHash ip key (some cache.blockEnd)
      blockEnd := cache.blockEnd + 1 })
  pure cache.blockEnd

/-- `fcache_del`: the entry of a key leaves the hash table of an inode. -/
def fcacheDel (ip key : Nat) : Cached PUnit :=
  modify (fun cache => { cache with hash := cache.setHash ip key none })

/-- `list_move` to the front of the list. -/
def listMove (address : Nat) : Cached PUnit :=
  modify (fun cache => { cache with lru := address :: cache.lru.erase address })

/-- Drop one block: its data is freed, and it leaves the list, the hash table of
the inode that is being read, and the heap. -/
def dropBlock (ip address : Nat) (block : FcacheBlock) : Cached PUnit := do
  modify (fun cache =>
    { cache with
      n := low 32 (cache.n + (2 ^ 32 - low 32 (block.size / 4096)))
      buffer := Function.update cache.buffer block.data none
      lru := cache.lru.erase address })
  fcacheDel ip block.key
  modify (fun cache => { cache with block := Function.update cache.block address none })

/-- The loop of `evict_read_cache` over the rest of the list. -/
def evictFrom (ip limit : Nat) : List Nat -> Nat -> Cached PUnit
  | [], _ => pure PUnit.unit
  | address :: rest, count => do
      if limit < count then pure PUnit.unit
      else do
        let block ← derefBlock address
        dropBlock ip address block
        evictFrom ip limit rest (low 32 (count + block.size / 4096))

/-- `evict_read_cache`: drop blocks from the end of the list until more than the
given number of 4 KiB blocks is gone. -/
def evictReadCache (ip limit : Nat) : Cached PUnit := do
  let cache ← get
  evictFrom ip limit cache.lru.reverse 0

/-- The block that `add_to_read_cache` fills: the cached one, or a new one that is
counted.  A cached block of an unusual size leaves the hash table. -/
def blockFor (ip off size : Nat) : Cached Nat := do
  let found ← fcacheFind ip (off / 4096)
  match found with
  | none => do
      let address ← fcacheAllocAdd ip (off / 4096)
      modify (fun cache => { cache with n := low 32 (cache.n + size / 4096) })
      pure address
  | some address => do
      let block ← derefBlock address
      if block.size < 4096 ∨ chunkSize < block.size then fcacheDel ip block.key
      else pure PUnit.unit
      pure address

/-- Point a block to new data. -/
def fillBlock (address size data : Nat) : Cached PUnit :=
  modify (fun cache =>
    { cache with
      block := Function.update cache.block address
        ((cache.block address).map (fun block => { block with size := size, data := data })) })

/-- `add_to_read_cache`: the address of the block. -/
def addToReadCache (ip off size data : Nat) : Cached Nat := do
  modify (fun cache =>
    { cache with insertions := cache.insertions ++ [⟨cache.toCacheIndex, ip, off, size⟩] })
  let address ← blockFor ip off size
  fillBlock address size data
  listMove address
  let cache ← get
  if gMaxReadCacheBlocks < cache.n then evictReadCache ip (cache.n - gMaxReadCacheBlocks)
  else pure PUnit.unit
  pure address

/-- Allocate a data buffer; what it contains is not specified. -/
def allocBuffer (contents : Nat -> UInt8) : Cached Nat := do
  let cache ← get
  modify (fun cache =>
    { cache with
      buffer := Function.update cache.buffer cache.bufferEnd (some contents)
      bufferEnd := cache.bufferEnd + 1 })
  pure cache.bufferEnd

/-! ## What the bookkeeping does to data buffers -/

/-- Data buffers may be freed; no other buffer changes and none is made. -/
structure Frees (cache next : ReadCache) : Prop where
  bufferEnd : next.bufferEnd = cache.bufferEnd
  buffer : forall address, next.buffer address = cache.buffer address ∨ next.buffer address = none

instance : Std.Refl Frees where
  refl := fun _ => ⟨rfl, fun _ => .inl rfl⟩

instance : IsTrans ReadCache Frees where
  trans := fun first second third before after => by
    refine ⟨after.bufferEnd.trans before.bufferEnd, ?_⟩
    intro address
    rcases after.buffer address with same | freed
    · rw [same]
      exact before.buffer address
    · exact .inr freed

/-- A step that does not touch the buffers. -/
theorem frees_modify {change : ReadCache -> ReadCache}
    (bufferEnd : forall cache, (change cache).bufferEnd = cache.bufferEnd)
    (buffer : forall cache, (change cache).buffer = cache.buffer) :
    Follows Frees (modify change : Cached PUnit) :=
  Follows.modify (fun cache => ⟨bufferEnd cache, fun address => .inl (by rw [buffer])⟩)

theorem frees_derefBlock (address : Nat) : Follows Frees (derefBlock address) := by
  apply Follows.bind Follows.get
  intro cache
  split
  · exact Follows.pure _
  · exact Follows.throw _

theorem frees_fcacheDel (ip key : Nat) : Follows Frees (fcacheDel ip key) :=
  frees_modify (fun _ => rfl) (fun _ => rfl)

theorem frees_dropBlock (ip address : Nat) (block : FcacheBlock) :
    Follows Frees (dropBlock ip address block) := by
  apply Follows.bind
  · apply Follows.modify
    intro cache
    refine ⟨rfl, ?_⟩
    intro other
    by_cases same : other = block.data
    · exact .inr (by rw [same]; exact Function.update_self _ _ _)
    · exact .inl (Function.update_of_ne same _ _)
  · intro _
    exact Follows.bind (frees_fcacheDel _ _) (fun _ => frees_modify (fun _ => rfl) (fun _ => rfl))

theorem frees_evictFrom (ip limit : Nat) (rest : List Nat) (count : Nat) :
    Follows Frees (evictFrom ip limit rest count) := by
  induction rest generalizing count with
  | nil => exact Follows.pure _
  | cons address rest ih =>
      apply Follows.ite
      · intro _
        exact Follows.pure _
      · intro _
        apply Follows.bind (frees_derefBlock address)
        intro block
        exact Follows.bind (frees_dropBlock ip address block) (fun _ => ih _)

theorem frees_blockFor (ip off size : Nat) : Follows Frees (blockFor ip off size) := by
  apply Follows.bind (Follows.bind Follows.get (fun _ => Follows.pure _))
  intro found
  cases found with
  | none =>
      apply Follows.bind
      · apply Follows.bind Follows.get
        intro cache
        exact Follows.bind (frees_modify (fun _ => rfl) (fun _ => rfl)) (fun _ => Follows.pure _)
      · intro address
        exact Follows.bind (frees_modify (fun _ => rfl) (fun _ => rfl)) (fun _ => Follows.pure _)
  | some address =>
      apply Follows.bind (frees_derefBlock address)
      intro block
      apply Follows.ite
      · intro _
        exact Follows.bind (frees_fcacheDel _ _) (fun _ => Follows.pure _)
      · intro _
        exact Follows.pure _

/-- `add_to_read_cache` frees data buffers at most. -/
theorem frees_addToReadCache (ip off size data : Nat) :
    Follows Frees (addToReadCache ip off size data) := by
  refine Follows.bind (frees_modify (fun _ => rfl) (fun _ => rfl)) (fun _ => ?_)
  apply Follows.bind (frees_blockFor ip off size)
  intro address
  refine Follows.bind (frees_modify (fun _ => rfl) (fun _ => rfl)) (fun _ => ?_)
  refine Follows.bind (frees_modify (fun _ => rfl) (fun _ => rfl)) (fun _ => ?_)
  apply Follows.bind Follows.get
  intro cache
  apply Follows.ite
  · intro _
    apply Follows.bind
    · exact Follows.bind Follows.get (fun _ => frees_evictFrom _ _ _ _)
    · exact fun _ => Follows.pure _
  · intro _
    exact Follows.pure _

/-! ## Faults of the read cache -/

theorem raises_derefBlock (address : Nat) :
    Raises (fun fault => fault = .segfault) (derefBlock address) := by
  apply Raises.bind Raises.get
  intro cache
  split
  · exact Raises.pure _
  · exact Raises.throw rfl

theorem raises_evictFrom (ip limit : Nat) (rest : List Nat) (count : Nat) :
    Raises (fun fault => fault = .segfault) (evictFrom ip limit rest count) := by
  induction rest generalizing count with
  | nil => exact Raises.pure _
  | cons address rest ih =>
      apply Raises.ite
      · intro _
        exact Raises.pure _
      · intro _
        apply Raises.bind (raises_derefBlock address)
        intro block
        apply Raises.bind _ (fun _ => ih _)
        apply Raises.bind (Raises.modify _)
        intro _
        exact Raises.bind (Raises.modify _) (fun _ => Raises.modify _)

theorem raises_blockFor (ip off size : Nat) :
    Raises (fun fault => fault = .segfault) (blockFor ip off size) := by
  apply Raises.bind (Raises.bind Raises.get (fun _ => Raises.pure _))
  intro found
  cases found with
  | none =>
      apply Raises.bind (Raises.bind Raises.get (fun _ => Raises.bind (Raises.modify _) (fun _ => Raises.pure _)))
      intro address
      exact Raises.bind (Raises.modify _) (fun _ => Raises.pure _)
  | some address =>
      apply Raises.bind (raises_derefBlock address)
      intro block
      apply Raises.ite
      · intro _
        exact Raises.bind (Raises.modify _) (fun _ => Raises.pure _)
      · intro _
        exact Raises.pure _

/-- The only fault of `add_to_read_cache` is an access to a freed block. -/
theorem raises_addToReadCache (ip off size data : Nat) :
    Raises (fun fault => fault = .segfault) (addToReadCache ip off size data) := by
  apply Raises.bind (Raises.modify _)
  intro _
  apply Raises.bind (raises_blockFor ip off size)
  intro address
  apply Raises.bind (Raises.modify _)
  intro _
  apply Raises.bind (Raises.modify _)
  intro _
  apply Raises.bind Raises.get
  intro cache
  apply Raises.ite
  · intro _
    apply Raises.bind
    · exact Raises.bind Raises.get (fun _ => raises_evictFrom _ _ _ _)
    · exact fun _ => Raises.pure _
  · intro _
    exact Raises.pure _

end Userfs.Filesystem
