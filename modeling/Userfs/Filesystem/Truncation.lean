import Userfs.Filesystem.ReadCache

namespace Userfs.Filesystem

open Word

/-!
# Truncation and the read cache

`itrunc` changes the size of a file and drops cached blocks.  For a length of zero it
walks the hash table of the inode and destroys it; the inode keeps the pointer.  For
any other length below the size it counts an unsigned size down in steps of a block and
drops the entry of each block number it passes.  The countdown ends only when it meets
zero exactly, and it never asks for block number zero.

The loop may run forever, so its model takes a number of rounds and says whether it
ended.  A table that was destroyed is marked, and every use of it stops the process, as
for other freed memory.
-/

namespace Truncation

/-- The file system, the read cache, and the inodes whose hash table was destroyed. -/
structure Session where
  store : Store
  cache : ReadCache
  destroyed : Nat -> Bool

/-- Programs that truncate. -/
abbrev Tr := EStateM Fault Session

/-- Run a program of the read cache. -/
def onCache {X : Type} (program : Cached X) : Tr X := fun session =>
  match program.run session.cache with
  | .ok result cache => .ok result { session with cache := cache }
  | .error fault cache => .error fault { session with cache := cache }

/-- Follow the pointer of an inode to its hash table. -/
def table (ip : Nat) : Tr PUnit := do
  let session ← get
  if session.destroyed ip then throw .segfault else pure PUnit.unit

/-- `fcache_find`, with the access to the table. -/
def fcacheFind (ip key : Nat) : Tr (Option Nat) := do
  table ip
  onCache (Filesystem.fcacheFind ip key)

/-- `fcache_alloc_add`, with the access to the table. -/
def fcacheAllocAdd (ip key : Nat) : Tr Nat := do
  table ip
  onCache (Filesystem.fcacheAllocAdd ip key)

/-- One bucket of `fcache_del_all`: the block leaves the list and its data is freed; the
block itself is not. -/
def releaseBucket (ip key : Nat) : Cached PUnit := do
  let found ← Filesystem.fcacheFind ip key
  match found with
  | none => pure PUnit.unit
  | some address => do
      let block ← derefBlock address
      modify (fun cache =>
        { cache with
          lru := cache.lru.erase address
          buffer := Function.update cache.buffer block.data none })

/-- The loop of `fcache_del_all` over the keys in the order of the buckets. -/
def releaseBuckets (ip : Nat) : List Nat -> Cached PUnit
  | [] => pure PUnit.unit
  | key :: rest => do
      releaseBucket ip key
      releaseBuckets ip rest

/-- `fcache_del_all`. -/
def fcacheDelAll (ip : Nat) (buckets : List Nat) : Tr PUnit := do
  table ip
  onCache (releaseBuckets ip buckets)
  modify (fun session => { session with destroyed := Function.update session.destroyed ip true })

/-- A cached block leaves the list, the table and the heap.  Its data is not freed, and
the count of cached blocks stays. -/
def forgetBlock (ip address : Nat) : Cached PUnit := do
  let block ← derefBlock address
  modify (fun cache => { cache with lru := cache.lru.erase address })
  fcacheDel ip block.key
  modify (fun cache => { cache with block := Function.update cache.block address none })

/-- The body of the countdown. -/
def truncateBlock (ip key : Nat) : Tr PUnit := do
  let found ← fcacheFind ip key
  match found with
  | none => pure PUnit.unit
  | some address => onCache (forgetBlock ip address)

/-- The countdown, for a number of rounds: whether it has ended. -/
def countdown (ip : Nat) : Nat -> Nat -> Tr Bool
  | 0, size => pure (decide (size = 0))
  | rounds + 1, size =>
      if size = 0 then pure true
      else do
        truncateBlock ip (size / 4096)
        countdown ip rounds (sub64 size 4096)

/-- The part of `itrunc` before the size is set. -/
def invalidate (rounds : Nat) (buckets : List Nat) (ip length : Nat) : Tr Bool := do
  let session ← get
  if length = 0 then do
    fcacheDelAll ip buckets
    pure true
  else if length < (session.store.inode ip).size then
    countdown ip rounds (session.store.inode ip).size
  else pure true

/-- `itrunc` on a regular file: whether it returned within a number of rounds. -/
def itrunc (rounds : Nat) (buckets : List Nat) (ip length : Nat) : Tr Bool := do
  let ended ← invalidate rounds buckets ip length
  if ended then do
    modify (fun session =>
      { session with
        store := session.store.updateInode ip (fun inode => { inode with size := length }) })
    pure true
  else pure false

/-! ## Rules -/

section Rules

variable {session : Session} {failed : Fault -> Session -> Prop} {ip key : Nat}

theorem ensures_onCache {X : Type} {program : Cached X} {done : X -> Session -> Prop} :
    Ensures (onCache program) session done failed <->
      Ensures program session.cache
        (fun result cache => done result { session with cache := cache })
        (fun fault cache => failed fault { session with cache := cache }) := by
  cases outcome : program.run session.cache with
  | ok result cache =>
      rw [Ensures.ok_iff outcome, Ensures.ok_iff]
      unfold onCache EStateM.run
      change (match program.run session.cache with
        | .ok result cache => _
        | .error fault cache => _) = _
      rw [outcome]
  | error fault cache =>
      rw [Ensures.error_iff outcome, Ensures.error_iff]
      unfold onCache EStateM.run
      change (match program.run session.cache with
        | .ok result cache => _
        | .error fault cache => _) = _
      rw [outcome]

theorem ensures_table {done : PUnit -> Session -> Prop} :
    Ensures (table ip) session done failed <->
      if session.destroyed ip then failed .segfault session else done PUnit.unit session := by
  simp only [table, Ensures.bind_iff, Ensures.get_iff, Ensures.ite_iff, Ensures.throw_iff,
    Ensures.pure_iff]

theorem ensures_fcacheFind {done : Option Nat -> Session -> Prop}
    (present : session.destroyed ip = false) :
    Ensures (fcacheFind ip key) session done failed <->
      done (session.cache.hash ip key) session := by
  simp only [fcacheFind, Filesystem.fcacheFind, Ensures.bind_iff, ensures_table, present,
    Bool.false_eq_true, ↓reduceIte, ensures_onCache, Ensures.get_iff, Ensures.pure_iff]

end Rules

/-! ## What truncation must achieve -/

/-- Later lookups and insertions do not touch freed memory. -/
def Usable (session : Session) (ip : Nat) : Prop :=
  (forall key, Ensures (fcacheFind ip key) session (fun _ _ => True) (fun _ _ => False)) ∧
    forall key, Ensures (fcacheAllocAdd ip key) session (fun _ _ => True) (fun _ _ => False)

/-- A cached block holds a byte of the file at or behind an offset. -/
def HoldsBehind (block : FcacheBlock) (offset : Nat) : Prop :=
  0 < block.size ∧ offset < block.key * 4096 + block.size

/-- No block that the table of an inode names holds a byte at or behind an offset. -/
def Invalidated (cache : ReadCache) (ip offset : Nat) : Prop :=
  forall key address, cache.hash ip key = some address ->
    Exists fun block => cache.block address = some block ∧ ¬ HoldsBehind block offset

/-- The table of an inode names live blocks under their own keys. -/
def Live (cache : ReadCache) (ip : Nat) : Prop :=
  forall key address, cache.hash ip key = some address ->
    Exists fun block => cache.block address = some block ∧ block.key = key

/-- The entries of some keys of an inode were dropped; the other blocks of the inode and
everything else that truncation reads stayed. -/
structure Dropped (session next : Session) (ip : Nat) (keys : Nat -> Prop) : Prop where
  store : next.store = session.store
  destroyed : next.destroyed = session.destroyed
  gone : forall key, keys key -> next.cache.hash ip key = none
  kept : forall key, ¬ keys key -> next.cache.hash ip key = session.cache.hash ip key
  block : forall key address, next.cache.hash ip key = some address ->
    next.cache.block address = session.cache.block address

section Countdown

variable {session next last : Session} {ip key : Nat} {keys more : Nat -> Prop}

theorem Dropped.refl (session : Session) (ip : Nat) : Dropped session session ip (fun _ => False) :=
  ⟨rfl, rfl, fun _ none => none.elim, fun _ _ => rfl, fun _ _ _ => rfl⟩

theorem Dropped.live (dropped : Dropped session next ip keys) (live : Live session.cache ip) :
    Live next.cache ip := by
  intro key address found
  have notGone : ¬ keys key := by
    intro gone
    rw [dropped.gone key gone] at found
    cases found
  rw [dropped.block key address found]
  rw [dropped.kept key notGone] at found
  exact live key address found

theorem Dropped.trans (first : Dropped session next ip keys) (second : Dropped next last ip more) :
    Dropped session last ip (fun key => keys key ∨ more key) := by
  refine ⟨second.store.trans first.store, second.destroyed.trans first.destroyed, ?_, ?_, ?_⟩
  · intro key gone
    by_cases later : more key
    · exact second.gone key later
    · rw [second.kept key later]
      exact first.gone key (gone.resolve_right later)
  · intro key notGone
    rw [second.kept key (fun later => notGone (Or.inr later))]
    exact first.kept key (fun earlier => notGone (Or.inl earlier))
  · intro key address found
    have notLater : ¬ more key := by
      intro later
      rw [second.gone key later] at found
      cases found
    rw [second.block key address found]
    rw [second.kept key notLater] at found
    exact first.block key address found

theorem Dropped.congr (dropped : Dropped session next ip keys) (same : forall key, keys key <-> more key) :
    Dropped session next ip more := by
  have equal : keys = more := funext (fun key => propext (same key))
  rw [← equal]
  exact dropped

/-- One round drops the entry of its key. -/
theorem ensures_truncateBlock (present : session.destroyed ip = false)
    (live : Live session.cache ip) :
    Ensures (truncateBlock ip key) session
      (fun _ next => Dropped session next ip (fun other => other = key)) (fun _ _ => False) := by
  simp only [truncateBlock, Ensures.bind_iff, ensures_fcacheFind present]
  cases entry : session.cache.hash ip key with
  | none =>
      refine Ensures.pure_iff.mpr ⟨rfl, rfl, ?_, fun _ _ => rfl, fun _ _ _ => rfl⟩
      intro other same
      rw [same]
      exact entry
  | some address =>
      rcases live key address entry with ⟨block, stored, own⟩
      simp only [ensures_onCache, forgetBlock, derefBlock, fcacheDel, Ensures.bind_iff,
        Ensures.get_iff, stored, Ensures.pure_iff, Ensures.modify_iff, own]
      have hash : forall other, other ≠ key ->
          session.cache.setHash ip key none ip other = session.cache.hash ip other := by
        intro other different
        unfold CacheIndex.setHash
        rw [Function.update_self, Function.update_of_ne different]
      have gone : session.cache.setHash ip key none ip key = none := by
        unfold CacheIndex.setHash
        rw [Function.update_self, Function.update_self]
      refine ⟨rfl, rfl, ?_, hash, ?_⟩
      · intro other same
        rw [same]
        exact gone
      · intro other found named
        have different : other ≠ key := by
          intro same
          rw [same] at named
          cases gone.symm.trans named
        have named : session.cache.hash ip other = some found := (hash other different).symm.trans named
        -- two keys never name one block, since a block knows its key
        have apart : found ≠ address := by
          intro same
          rcases live other found named with ⟨again, storedAgain, ownAgain⟩
          rw [same, stored] at storedAgain
          cases storedAgain
          exact different (ownAgain.symm.trans own)
        exact Function.update_of_ne apart _ _

/-- The countdown from a multiple of the block size ends after that many rounds, and it
has then dropped every entry from the first block to the last. -/
theorem ensures_countdown (rounds blocks : Nat) (small : blocks * 4096 < 2 ^ 64)
    (present : session.destroyed ip = false) (live : Live session.cache ip) :
    Ensures (countdown ip rounds (blocks * 4096)) session
      (fun ended next => (ended = true <-> blocks ≤ rounds) ∧ (ended = true ->
        Dropped session next ip (fun key => 1 ≤ key ∧ key ≤ blocks))) (fun _ _ => False) := by
  have nothing : forall key, False <-> 1 ≤ key ∧ key ≤ 0 :=
    fun key => ⟨False.elim, fun inside => by omega⟩
  induction rounds generalizing session blocks with
  | zero =>
      rw [countdown, Ensures.pure_iff, decide_eq_true_iff]
      refine ⟨by omega, fun zero => ?_⟩
      have none : blocks = 0 := by omega
      rw [none]
      exact (Dropped.refl session ip).congr nothing
  | succ rounds ih =>
      rw [countdown]
      by_cases none : blocks = 0
      · subst none
        rw [if_pos (Nat.zero_mul _), Ensures.pure_iff]
        exact ⟨by simp, fun _ => (Dropped.refl session ip).congr nothing⟩
      · have fewer : (blocks - 1) * 4096 < 2 ^ 64 :=
          Nat.lt_of_le_of_lt (Nat.mul_le_mul_right _ (Nat.sub_le _ _)) small
        have running : ¬ blocks * 4096 = 0 := by omega
        have key : blocks * 4096 / 4096 = blocks := by omega
        have rest : sub64 (blocks * 4096) 4096 = (blocks - 1) * 4096 := by
          rw [sub64_of_le (by omega) small]
          omega
        rw [if_neg running, key, rest, Ensures.bind_iff]
        refine (ensures_truncateBlock present live).mono ?_ (fun _ _ fault => fault)
        intro _ middle first
        have stillPresent : middle.destroyed ip = false := by
          rw [first.destroyed]
          exact present
        refine (ih (blocks - 1) fewer stillPresent (first.live live)).mono ?_
          (fun _ _ fault => fault)
        rintro ended next ⟨inTime, second⟩
        refine ⟨inTime.trans (by omega), fun done => (first.trans (second done)).congr ?_⟩
        intro key
        omega

/-- The countdown from any other size never ends. -/
theorem ensures_countdown_endless (rounds : Nat) {size : Nat} (partly : size % 4096 ≠ 0) :
    Ensures (countdown ip rounds size) session (fun ended _ => ended = false) (fun _ _ => True) := by
  have running : ¬ size = 0 := by omega
  induction rounds generalizing session size with
  | zero => exact Ensures.pure_iff.mpr (decide_eq_false running)
  | succ rounds ih =>
      rw [countdown, if_neg running, Ensures.bind_iff]
      refine Ensures.always.mono ?_ (fun _ _ fault => fault)
      intro _ middle _
      have again : sub64 size 4096 % 4096 ≠ 0 := by
        unfold sub64 low
        omega
      exact ih again (by omega)

end Countdown

section Result

variable {session next : Session} {ip length rounds : Nat} {buckets : List Nat}

/-- The table can be used exactly if it was not destroyed. -/
theorem usable_iff : Usable session ip <-> session.destroyed ip = false := by
  constructor
  · intro usable
    have found := usable.1 0
    rw [fcacheFind, Ensures.bind_iff, ensures_table] at found
    cases destroyed : session.destroyed ip with
    | false => rfl
    | true =>
        rw [if_pos destroyed] at found
        exact found.elim
  · intro present
    refine ⟨fun key => (ensures_fcacheFind present).mpr trivial, fun key => ?_⟩
    simp only [fcacheAllocAdd, Filesystem.fcacheAllocAdd, Ensures.bind_iff, ensures_table, present,
      Bool.false_eq_true, ↓reduceIte, ensures_onCache, Ensures.get_iff, Ensures.modify_iff,
      Ensures.pure_iff]

/-- Truncation to nothing leaves the inode with a destroyed table. -/
theorem ensures_itrunc_zero :
    Ensures (itrunc rounds buckets ip 0) session (fun _ next => next.destroyed ip = true)
      (fun _ _ => True) := by
  simp only [itrunc, invalidate, fcacheDelAll, Ensures.bind_iff, Ensures.get_iff, ↓reduceIte,
    ensures_table, ensures_onCache, Ensures.modify_iff, Ensures.pure_iff]
  split
  · trivial
  · refine Ensures.always.mono ?_ (fun _ _ fault => fault)
    intro _ cache _
    exact Function.update_self _ _ _

/-- Truncation of a file that does not end at a block boundary never returns. -/
theorem ensures_itrunc_endless (positive : length ≠ 0)
    (shorter : length < (session.store.inode ip).size)
    (partly : (session.store.inode ip).size % 4096 ≠ 0) :
    Ensures (itrunc rounds buckets ip length) session (fun ended _ => ended = false)
      (fun _ _ => True) := by
  simp only [itrunc, invalidate, Ensures.bind_iff, Ensures.get_iff, if_neg positive, if_pos shorter]
  refine (ensures_countdown_endless rounds partly).mono ?_ (fun _ _ fault => fault)
  intro ended next running
  rw [running]
  simp only [Bool.false_eq_true, ↓reduceIte, Ensures.pure_iff]

/-- The keys whose entries a truncation to a positive length drops. -/
def Passed (size length key : Nat) : Prop :=
  length < size ∧ 1 ≤ key ∧ key ≤ size / 4096

/-- Truncation to a positive length, of a file that the countdown can cope with: it
returns when it has enough rounds, and then it has dropped the entries it passed. -/
theorem ensures_itrunc (rounds : Nat) (positive : length ≠ 0)
    (ends : length < (session.store.inode ip).size -> (session.store.inode ip).size % 4096 = 0)
    (word : (session.store.inode ip).size < 2 ^ 64) (present : session.destroyed ip = false)
    (live : Live session.cache ip) :
    Ensures (itrunc rounds buckets ip length) session
      (fun ended next => ((session.store.inode ip).size / 4096 ≤ rounds -> ended = true) ∧
        (ended = true -> Exists fun middle =>
          Dropped session middle ip (Passed (session.store.inode ip).size length) ∧
          next = { middle with
            store := middle.store.updateInode ip (fun inode => { inode with size := length }) }))
      (fun _ _ => False) := by
  simp only [itrunc, invalidate, Ensures.bind_iff, Ensures.get_iff, Ensures.ite_iff, if_neg positive]
  by_cases shorter : length < (session.store.inode ip).size
  · rw [if_pos shorter]
    have whole : (session.store.inode ip).size / 4096 * 4096 = (session.store.inode ip).size := by
      have aligned := ends shorter
      omega
    have run := @ensures_countdown session ip rounds ((session.store.inode ip).size / 4096)
      (by rw [whole]; exact word) present live
    rw [whole] at run
    refine run.mono ?_ (fun _ _ fault => fault)
    rintro ended middle ⟨inTime, dropped⟩
    cases ended with
    | false =>
        simp only [Bool.false_eq_true, ↓reduceIte, Ensures.pure_iff]
        exact ⟨fun enough => Bool.noConfusion (inTime.mpr enough), fun impossible => impossible.elim⟩
    | true =>
        simp only [↓reduceIte, Ensures.modify_iff, Ensures.pure_iff]
        refine ⟨fun _ => trivial, fun _ => ⟨middle, (dropped rfl).congr ?_, rfl⟩⟩
        exact fun key => ⟨fun inside => ⟨shorter, inside⟩, fun passed => passed.2⟩
  · rw [if_neg shorter]
    simp only [Ensures.pure_iff, ↓reduceIte, Ensures.modify_iff]
    refine ⟨fun _ => trivial, fun _ => ⟨session, (Dropped.refl session ip).congr ?_, rfl⟩⟩
    exact fun key => ⟨False.elim, fun passed => shorter passed.1⟩

/-- Truncation returns, sets the size, leaves no cached block with a byte behind the new
end and leaves the cache usable if and only if the length is not zero, a longer file ends
at a block boundary, and each cached block with such a byte has a key that the countdown
passes, which zero is not. -/
theorem truncation_invalidates_iff (session : Session) (buckets : List Nat) (ip length : Nat)
    (word : (session.store.inode ip).size < 2 ^ 64) (present : session.destroyed ip = false)
    (live : Live session.cache ip) :
    (Exists fun rounds => Ensures (itrunc rounds buckets ip length) session
        (fun ended next => ended = true ∧ (next.store.inode ip).size = length ∧
          Invalidated next.cache ip length ∧ Usable next ip)
        (fun _ _ => False)) <->
      length ≠ 0 ∧
        (length < (session.store.inode ip).size -> (session.store.inode ip).size % 4096 = 0) ∧
        forall key address block, session.cache.hash ip key = some address ->
          session.cache.block address = some block -> HoldsBehind block length ->
          length < (session.store.inode ip).size ∧ 1 ≤ key ∧
            key ≤ (session.store.inode ip).size / 4096 := by
  constructor
  · rintro ⟨rounds, right⟩
    have positive : length ≠ 0 := by
      intro zero
      subst zero
      have both := ensures_itrunc_zero.and right
      refine (both.mono ?_ (fun _ _ fault => fault.2)).const
      rintro _ next ⟨destroyed, _, _, _, usable⟩
      rw [usable_iff.mp usable] at destroyed
      cases destroyed
    have ends : length < (session.store.inode ip).size ->
        (session.store.inode ip).size % 4096 = 0 := by
      intro shorter
      by_contra partly
      have endless := @ensures_itrunc_endless session ip length rounds buckets positive shorter partly
      refine ((endless.and right).mono ?_ (fun _ _ fault => fault.2)).const
      rintro ended next ⟨running, done, _⟩
      cases running.symm.trans done
    refine ⟨positive, ends, ?_⟩
    intro key address block found stored behind
    have run := @ensures_itrunc session ip length buckets rounds positive ends word present live
    refine ((run.and right).mono ?_ (fun _ _ fault => fault.2.elim)).const
    rintro ended next ⟨⟨_, returned⟩, done, _, invalidated, _⟩
    rcases returned done with ⟨middle, dropped, equal⟩
    subst equal
    -- an entry that is not passed is still there, with the same block
    by_contra notPassed
    have still : middle.cache.hash ip key = some address := (dropped.kept key notPassed).trans found
    rcases invalidated key address still with ⟨same, storedStill, notBehind⟩
    change middle.cache.block address = some same at storedStill
    rw [dropped.block key address still, stored] at storedStill
    cases storedStill
    exact notBehind behind
  · rintro ⟨positive, ends, passed⟩
    refine ⟨(session.store.inode ip).size / 4096,
      (ensures_itrunc _ positive ends word present live).mono ?_ (fun _ _ fault => fault)⟩
    rintro ended next ⟨inTime, returned⟩
    have done := inTime (Nat.le_refl _)
    rcases returned done with ⟨middle, dropped, equal⟩
    subst equal
    refine ⟨done, ?_, ?_, usable_iff.mpr ?_⟩
    · rw [updateInode_inode_self]
    · intro key address found
      have notPassed : ¬ Passed (session.store.inode ip).size length key := by
        intro gone
        cases (dropped.gone key gone).symm.trans found
      have before := (dropped.kept key notPassed).symm.trans found
      rcases live key address before with ⟨block, stored, _⟩
      refine ⟨block, (dropped.block key address found).trans stored, fun behind => ?_⟩
      exact notPassed (passed key address block before stored behind)
    · change middle.destroyed ip = false
      rw [dropped.destroyed]
      exact present

end Result

/-- A session whose first file has a size, with a read cache. -/
def sized (size : Nat) (cache : ReadCache) : Session where
  store := freshStore.updateInode 0 (fun inode => { inode with size := size })
  cache := cache
  destroyed := fun _ => false

/-- A read cache with the first two blocks of the first file in an entry each. -/
def blockEach : ReadCache :=
  { ReadCache.empty with
    block := fun address => if address < 2 then some ⟨0, address, 4096, address⟩ else none
    hash := fun ip key => if ip = 0 ∧ key < 2 then some key else none
    lru := [1, 0]
    n := 2
    blockEnd := 2 }

/-- Two blocks, both in the read cache, are cut to one: the entry of the second is dropped. -/
theorem truncation_invalidates_cached_block :
    Exists fun rounds => Ensures (itrunc rounds [] 0 4096) (sized 8192 blockEach)
      (fun ended next => ended = true ∧ (next.store.inode 0).size = 4096 ∧
        Invalidated next.cache 0 4096 ∧ Usable next 0)
      (fun _ _ => False) := by
  have named : forall key address, blockEach.hash 0 key = some address -> key < 2 ∧ address = key := by
    intro key address found
    change (if 0 = 0 ∧ key < 2 then some key else none) = some address at found
    split at found
    case isTrue small => exact ⟨small.2, (Option.some.inj found).symm⟩
    case isFalse => cases found
  have stored : forall address, address < 2 ->
      blockEach.block address = some ⟨0, address, 4096, address⟩ := fun _ small => if_pos small
  have live : Live (sized 8192 blockEach).cache 0 := by
    intro key address found
    rcases named key address found with ⟨small, same⟩
    rw [same]
    exact ⟨_, stored key small, rfl⟩
  refine (truncation_invalidates_iff (sized 8192 blockEach) [] 0 4096 (by decide) rfl live).mpr
    ⟨by decide, fun _ => rfl, ?_⟩
  intro key address block found held behind
  rcases named key address found with ⟨small, same⟩
  rw [same] at held
  rw [← Option.some.inj ((stored key small).symm.trans held)] at behind
  have late : 4096 < key * 4096 + 4096 := behind.2
  change 4096 < 8192 ∧ 1 ≤ key ∧ key ≤ 8192 / 4096
  omega

/-- A read cache with the first two blocks of the first file in one entry. -/
def twoBlocks : ReadCache :=
  { ReadCache.empty with
    block := fun address => if address = 0 then some ⟨0, 0, 8192, 0⟩ else none
    hash := fun ip key => if ip = 0 ∧ key = 0 then some 0 else none
    lru := [0]
    n := 2
    blockEnd := 1 }

/-- A file of 5000 bytes is never cut to 100; after a truncation to nothing the next
lookup meets freed memory; and the entry of block zero survives with bytes behind the new
end. -/
theorem truncation_leaves_blocks :
    (¬ Exists fun rounds => Ensures (itrunc rounds [] 0 100) (sized 5000 ReadCache.empty)
      (fun ended _ => ended = true) (fun _ _ => False)) ∧
    Ensures (do
        let _ ← itrunc 0 [] 0 0
        fcacheFind 0 0) (sized 4096 ReadCache.empty) (fun _ _ => False)
      (fun fault _ => fault = .segfault) ∧
    Ensures (itrunc 2 [0] 0 100) (sized 8192 twoBlocks)
      (fun ended next => ended = true ∧ next.cache.hash 0 0 = some 0 ∧
        (next.cache.block 0).map (fun block => block.size) = some 8192) (fun _ _ => False) := by
  refine ⟨?_, by decide +kernel, by decide +kernel⟩
  rintro ⟨rounds, right⟩
  have endless := @ensures_itrunc_endless (sized 5000 ReadCache.empty) 0 100 rounds [] (by decide)
    (by decide) (by decide)
  refine ((endless.and right).mono ?_ (fun _ _ fault => fault.2)).const
  exact fun _ _ both => Bool.noConfusion (both.1.symm.trans both.2)

end Truncation

end Userfs.Filesystem
