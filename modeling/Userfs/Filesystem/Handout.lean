import Userfs.Filesystem.Parcels

namespace Userfs.Filesystem

open Word

/-!
# Device space over long histories

The write paths call the four allocators in any order, and nothing is ever given
back.  An SSD counter is shifted into a 64-bit address, so its chunks repeat after
`2^43` allocations only.  The NVM allocator starts again at `nvmstartblock` as soon
as the next request would pass `NVMSIZE`; from then on it hands out space that is in
use.  This file says exactly which histories are free of such repetitions.
-/

/-- The base addresses that a sequence of allocations returns, with the devices they
are on. -/
def allocateAll (nvmstartblock : Nat) : List (Fin 4) -> AddrInfo -> List (Nat × Nat)
  | [], _ => []
  | devid :: rest, info =>
      (devid.val, (allocateOn nvmstartblock info devid).1) ::
        allocateAll nvmstartblock rest (allocateOn nvmstartblock info devid).2

/-- The base addresses on one device, in order. -/
def basesOn (devid : Nat) (allocations : List (Nat × Nat)) : List Nat :=
  (allocations.filter (fun allocation => allocation.1 = devid)).map Prod.snd

/-- Two chunks share no address. -/
abbrev ChunkDisjoint (first second : Nat) : Prop :=
  Interval.Disjoint id (fun base => base + chunkSize) first second

/-- The chunks of each device are disjoint, and those of the NVM end at `NVMSIZE`
blocks. -/
def HandedOnce (allocations : List (Nat × Nat)) : Prop :=
  (forall devid, devid < 4 -> (basesOn devid allocations).Pairwise ChunkDisjoint) ∧
    forall base, base ∈ basesOn 0 allocations -> base + chunkSize ≤ nvmSize * 4096

theorem chunkDisjoint_irrefl (base : Nat) : ¬ ChunkDisjoint base base := by
  intro disjoint
  have covered : Interval.Covers id (fun base => base + chunkSize) base base :=
    ⟨Nat.le_refl _, Nat.lt_add_of_pos_right (by decide)⟩
  exact disjoint base covered covered

/-- Different multiples of 2 MB start disjoint chunks. -/
theorem chunkDisjoint_of_ne {first second : Nat} (different : first ≠ second) :
    ChunkDisjoint (first * chunkSize) (second * chunkSize) := by
  intro point inFirst inSecond
  have inFirst : first * chunkSize ≤ point ∧ point < first * chunkSize + chunkSize := inFirst
  have inSecond : second * chunkSize ≤ point ∧ point < second * chunkSize + chunkSize := inSecond
  unfold chunkSize at *
  omega

/-! ## The SSDs -/

theorem basesOn_cons_self (devid base : Nat) (rest : List (Nat × Nat)) :
    basesOn devid ((devid, base) :: rest) = base :: basesOn devid rest := by
  unfold basesOn
  rw [List.filter_cons_of_pos (by simp), List.map_cons]

theorem basesOn_cons_other {devid other : Nat} (different : other ≠ devid) (base : Nat)
    (rest : List (Nat × Nat)) : basesOn devid ((other, base) :: rest) = basesOn devid rest := by
  unfold basesOn
  rw [List.filter_cons_of_neg (by simpa using different)]

/-- Consecutive values, the first one split off. -/
theorem map_range_succ (f : Nat -> Nat) (counter count : Nat) :
    (List.range (count + 1)).map (fun index => f (counter + index)) =
      f counter :: (List.range count).map (fun index => f (counter + 1 + index)) := by
  rw [List.range_succ_eq_map, List.map_cons, List.map_map, Nat.add_zero]
  have shift : ((fun index => f (counter + index)) ∘ Nat.succ) =
      fun index => f (counter + 1 + index) := by
    funext index
    exact congrArg f (by omega)
  rw [shift]

/-- The addresses on an SSD depend on its counter and the number of calls. -/
theorem basesOn_ssd (nvmstartblock : Nat) (devids : List (Fin 4)) (info : AddrInfo) {devid : Fin 4}
    (onSsd : devid.val ≠ 0) :
    basesOn devid (allocateAll nvmstartblock devids info) =
      (List.range (devids.count devid)).map (fun index => shl64 (info.counter devid + index) 21) := by
  induction devids generalizing info with
  | nil => rfl
  | cons head rest ih =>
      have rest' := ih (allocateOn nvmstartblock info head).2
      unfold allocateAll
      by_cases same : head = devid
      · subst same
        rcases allocateOn_counter_ssd head.isLt onSsd with ⟨base, counter⟩
        rw [counter] at rest'
        rw [basesOn_cons_self, rest', base, List.count_cons_self,
          map_range_succ (fun value => shl64 value 21)]
      · have otherDevice : head.val ≠ devid.val := fun equal => same (Fin.ext equal)
        rw [allocateOn_counter_other head.isLt devid.isLt (Ne.symm otherDevice)] at rest'
        rw [basesOn_cons_other otherDevice, rest', List.count_cons_of_ne same]

/-- Consecutive counters of an SSD give disjoint chunks until they have run through
all `2^43` addresses. -/
theorem ssd_disjoint_iff (counter count : Nat) :
    ((List.range count).map (fun index => shl64 (counter + index) 21)).Pairwise ChunkDisjoint <->
      count ≤ 2 ^ 43 := by
  rw [List.pairwise_map]
  constructor
  · intro pairwise
    by_contra many
    have bound : 2 ^ 43 < count := Nat.lt_of_not_le many
    have disjoint := List.pairwise_iff_getElem.mp pairwise 0 (2 ^ 43) (by simp; omega)
      (by simpa using bound) (by decide)
    rw [List.getElem_range, List.getElem_range] at disjoint
    have repeated : shl64 (counter + 2 ^ 43) 21 = shl64 (counter + 0) 21 := by
      unfold shl64 low
      omega
    rw [repeated] at disjoint
    exact chunkDisjoint_irrefl _ disjoint
  · intro few
    refine List.pairwise_lt_range.imp_of_mem ?_
    intro first second _ secondMember before
    have bound := List.mem_range.mp secondMember
    rw [shl64_chunk, shl64_chunk]
    apply chunkDisjoint_of_ne
    omega

/-! ## The NVM -/

/-- The base addresses of consecutive allocations of 512 blocks of the NVM. -/
def nvmBases (nvmstartblock : Nat) : Nat -> Nat -> List Nat
  | _, 0 => []
  | counter, count + 1 =>
      if add64 counter 512 ≤ nvmSize then
        shl64 counter 12 :: nvmBases nvmstartblock (add64 counter 512) count
      else
        shl64 nvmstartblock 12 :: nvmBases nvmstartblock (add64 nvmstartblock 512) count

theorem nvmBases_succ (nvmstartblock count : Nat) (info : AddrInfo) :
    nvmBases nvmstartblock (info.counter 0) (count + 1) =
      (allocateNvmblock nvmstartblock 512 info).1 ::
        nvmBases nvmstartblock ((allocateNvmblock nvmstartblock 512 info).2.counter 0) count := by
  rw [nvmBases]
  unfold allocateNvmblock
  simp only [AddrInfo.counter]
  by_cases room : add64 info.nvmBlockAddr 512 ≤ nvmSize
  · simp only [if_pos room]
  · simp only [if_neg room]

theorem basesOn_nvm (nvmstartblock : Nat) (devids : List (Fin 4)) (info : AddrInfo) :
    basesOn 0 (allocateAll nvmstartblock devids info) =
      nvmBases nvmstartblock (info.counter 0) (devids.count 0) := by
  induction devids generalizing info with
  | nil => rfl
  | cons head rest ih =>
      have rest' := ih (allocateOn nvmstartblock info head).2
      unfold allocateAll
      by_cases same : head = 0
      · rw [same] at rest' ⊢
        rw [List.count_cons_self, nvmBases_succ]
        exact (basesOn_cons_self 0 _ _).trans (congrArg _ rest')
      · have otherDevice : head.val ≠ 0 := fun equal => same (Fin.ext equal)
        rw [allocateOn_counter_other head.isLt (by decide) (Ne.symm otherDevice)] at rest'
        rw [basesOn_cons_other otherDevice, rest', List.count_cons_of_ne same]

set_option maxRecDepth 2000 in
/-- As long as there is room, the allocations follow one another. -/
theorem nvmBases_append {nvmstartblock counter first : Nat}
    (room : counter + 512 * first ≤ nvmSize) (second : Nat) :
    nvmBases nvmstartblock counter (first + second) =
      (List.range first).map (fun index => (counter + 512 * index) * 4096) ++
        nvmBases nvmstartblock (counter + 512 * first) second := by
  induction first generalizing counter with
  | zero => simp
  | succ first ih =>
      have fits : counter + 512 ≤ nvmSize := by omega
      have rest : counter + 512 + 512 * first ≤ nvmSize := by omega
      have more : first + 1 + second = first + second + 1 := by omega
      have next : counter + 512 + 512 * first = counter + 512 * (first + 1) := by omega
      have shift : ((fun index => (counter + 512 * index) * 4096) ∘ Nat.succ) =
          fun index => (counter + 512 + 512 * index) * 4096 := by
        funext index
        exact congrArg (· * 4096) (by omega)
      have small : counter + 512 < 2 ^ 64 := by
        unfold nvmSize at room
        omega
      have base : shl64 counter 12 = (counter + 512 * 0) * 4096 := by
        apply low_of_lt
        unfold nvmSize at room
        omega
      rw [more, nvmBases, add64_of_lt small, if_pos fits, base, ih rest, List.range_succ_eq_map,
        List.map_cons, List.map_map, List.cons_append, shift, next]

/-- Successive ranges of 512 blocks below `NVMSIZE` are disjoint and end below it. -/
theorem nvm_range_disjoint {start count : Nat} (room : start + 512 * count ≤ nvmSize) :
    ((List.range count).map (fun index => (start + 512 * index) * 4096)).Pairwise ChunkDisjoint ∧
      forall base, base ∈ (List.range count).map (fun index => (start + 512 * index) * 4096) ->
        base + chunkSize ≤ nvmSize * 4096 := by
  constructor
  · rw [List.pairwise_map]
    refine List.pairwise_lt_range.imp ?_
    intro first second before point inFirst inSecond
    have inFirst : point < (start + 512 * first) * 4096 + chunkSize := inFirst.2
    have inSecond : (start + 512 * second) * 4096 ≤ point := inSecond.1
    unfold chunkSize at *
    omega
  · intro base member
    rcases List.mem_map.mp member with ⟨index, inRange, rfl⟩
    have bound := List.mem_range.mp inRange
    unfold chunkSize
    omega

/-- The first allocation returns `nvmstartblock` in either branch. -/
theorem nvmBases_first (start count : Nat) :
    nvmBases start start (count + 1) = shl64 start 12 :: nvmBases start (add64 start 512) count := by
  rw [nvmBases]
  by_cases room : add64 start 512 ≤ nvmSize
  · rw [if_pos room]
  · rw [if_neg room]

/-- An allocation for which there is no room returns `nvmstartblock` again. -/
theorem nvmBases_wraps {start counter : Nat} (full : ¬ add64 counter 512 ≤ nvmSize) (count : Nat) :
    nvmBases start counter (count + 1) = shl64 start 12 :: nvmBases start (add64 start 512) count := by
  rw [nvmBases, if_neg full]

theorem not_pairwise_of_repeated {base : Nat} {bases : List Nat} (repeated : base ∈ bases) :
    ¬ (base :: bases).Pairwise ChunkDisjoint := by
  intro pairwise
  exact chunkDisjoint_irrefl base (List.rel_of_pairwise_cons pairwise repeated)

set_option maxRecDepth 2000 in
/-- Two or more allocations of the NVM that do not fit below `NVMSIZE` together
return a range twice or one that passes `NVMSIZE`. -/
theorem nvm_overflows {start count : Nat} (machine : start < 2 ^ 64) (several : 2 ≤ count)
    (full : nvmSize < start + 512 * count)
    (pairwise : (nvmBases start start count).Pairwise ChunkDisjoint) :
    Exists fun base => base ∈ nvmBases start start count ∧ nvmSize * 4096 < base + chunkSize := by
  by_cases room : start + 512 ≤ nvmSize
  · -- the last request that fits is followed by one that gets `start` again
    exfalso
    have fitting : Exists fun before => before + 1 < count ∧
        start + 512 * (before + 1) ≤ nvmSize ∧ nvmSize < start + 512 * (before + 1) + 512 :=
      ⟨(nvmSize - start) / 512 - 1, by omega, by omega, by omega⟩
    rcases fitting with ⟨before, less, fits, next⟩
    have split : count = before + 1 + (count - before - 2 + 1) := by omega
    have small : start + 512 * (before + 1) + 512 < 2 ^ 64 := by
      unfold nvmSize at fits
      omega
    have inside : start * 4096 < 2 ^ 64 := by
      unfold nvmSize at fits
      omega
    have wraps : ¬ add64 (start + 512 * (before + 1)) 512 ≤ nvmSize := by
      rw [add64_of_lt small]
      exact Nat.not_le.mpr next
    have base : shl64 start 12 = start * 4096 := low_of_lt inside
    rw [split, nvmBases_append fits, nvmBases_wraps wraps, List.range_succ_eq_map,
      List.map_cons, List.cons_append, base, Nat.mul_zero, Nat.add_zero] at pairwise
    exact not_pairwise_of_repeated (by simp) pairwise
  · have split : count = (count - 2 + 1) + 1 := by omega
    rw [split, nvmBases_first] at pairwise ⊢
    by_cases wraps : add64 (add64 start 512) 512 ≤ nvmSize
    · refine ⟨_, List.mem_cons_self, ?_⟩
      unfold add64 low nvmSize at wraps
      unfold nvmSize at room
      unfold shl64 low nvmSize chunkSize
      omega
    · exfalso
      rw [nvmBases_wraps wraps] at pairwise
      exact not_pairwise_of_repeated List.mem_cons_self pairwise

/-- The allocations of the NVM that are disjoint and end below `NVMSIZE`. -/
theorem nvm_handed_iff {start : Nat} (machine : start < 2 ^ 64) (count : Nat) :
    ((nvmBases start start count).Pairwise ChunkDisjoint ∧
      forall base, base ∈ nvmBases start start count -> base + chunkSize ≤ nvmSize * 4096) <->
      count = 0 ∨ start + 512 * count ≤ nvmSize ∨
        (count = 1 ∧ start % 2 ^ 52 + 512 ≤ nvmSize) := by
  constructor
  · rintro ⟨pairwise, bounded⟩
    rcases Nat.lt_or_ge count 2 with few | several
    · have cases : count = 0 ∨ count = 1 := by omega
      rcases cases with none | one
      · exact Or.inl none
      · refine Or.inr (Or.inr ⟨one, ?_⟩)
        rw [one] at bounded
        have bound := bounded (shl64 start 12) (by rw [nvmBases_first]; exact List.mem_cons_self)
        unfold shl64 low chunkSize at bound
        omega
    · refine Or.inr (Or.inl ?_)
      by_contra full
      rcases nvm_overflows machine several (Nat.lt_of_not_le full) pairwise with
        ⟨base, member, beyond⟩
      exact absurd (bounded base member) (Nat.not_le.mpr beyond)
  · rintro (none | room | ⟨one, room⟩)
    · rw [none]
      exact ⟨List.Pairwise.nil, fun base member => absurd member List.not_mem_nil⟩
    · have bases := @nvmBases_append start start count room 0
      rw [Nat.add_zero, nvmBases, List.append_nil] at bases
      rw [bases]
      exact nvm_range_disjoint room
    · rw [one, nvmBases_first, nvmBases]
      refine ⟨List.pairwise_singleton _ _, ?_⟩
      intro base member
      rw [List.mem_singleton.mp member]
      unfold shl64 low chunkSize
      omega

/-! ## All four devices -/

/-- The calls of a session hand out space once exactly if each SSD serves at most
`2^43` of them and those of the NVM fit between the first block handed out and
`NVMSIZE`.  A single request for the NVM is also harmless when the counter exceeds
`NVMSIZE` and the shift drops its high bits. -/
theorem space_handed_out_once_iff (info : AddrInfo) (machine : info.nvmBlockAddr < 2 ^ 64)
    (devids : List (Fin 4)) :
    HandedOnce (allocateAll info.nvmBlockAddr devids info) <->
      (devids.count 0 = 0 ∨ info.nvmBlockAddr + 512 * devids.count 0 ≤ nvmSize ∨
        (devids.count 0 = 1 ∧ info.nvmBlockAddr % 2 ^ 52 + 512 ≤ nvmSize)) ∧
      forall devid, devid ≠ 0 -> devids.count devid ≤ 2 ^ 43 := by
  have nvm := basesOn_nvm info.nvmBlockAddr devids info
  have counter : info.counter 0 = info.nvmBlockAddr := rfl
  rw [counter] at nvm
  rw [← nvm_handed_iff machine, ← nvm]
  unfold HandedOnce
  constructor
  · rintro ⟨disjoint, bounded⟩
    refine ⟨⟨disjoint 0 (by decide), bounded⟩, ?_⟩
    intro devid onSsd
    have ssd := disjoint devid devid.isLt
    rw [basesOn_ssd _ _ _ (fun equal => onSsd (Fin.ext equal))] at ssd
    exact (ssd_disjoint_iff _ _).mp ssd
  · rintro ⟨⟨disjoint, bounded⟩, few⟩
    refine ⟨?_, bounded⟩
    intro devid device
    by_cases onNvm : devid = 0
    · rw [onNvm]
      exact disjoint
    · have ssd := @basesOn_ssd info.nvmBlockAddr devids info ⟨devid, device⟩ onNvm
      rw [ssd]
      exact (ssd_disjoint_iff _ _).mpr (few ⟨devid, device⟩ (fun equal => onNvm (congrArg Fin.val equal)))

/-- With 512 blocks left, the second chunk of the NVM is the first one again. -/
theorem nvm_chunk_handed_out_twice :
    ¬ HandedOnce (allocateAll (nvmSize - 512) [0, 0] ⟨nvmSize - 512, 0, 0, 0⟩) := by
  intro once
  have bases : basesOn 0 (allocateAll (nvmSize - 512) [0, 0] ⟨nvmSize - 512, 0, 0, 0⟩) =
      [42947575808, 42947575808] := by
    decide +kernel
  have disjoint := once.1 0 (by decide)
  rw [bases] at disjoint
  exact not_pairwise_of_repeated List.mem_cons_self disjoint

/-- One chunk of each device from the first block on. -/
theorem space_handed_out_once_iff_rotation :
    HandedOnce (allocateAll 512 [0, 1, 2, 3] ⟨512, 0, 0, 0⟩) :=
  (space_handed_out_once_iff ⟨512, 0, 0, 0⟩ (by decide) [0, 1, 2, 3]).mpr
    ⟨Or.inr (Or.inl (by decide)), by decide⟩

end Userfs.Filesystem
