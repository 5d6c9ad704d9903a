import Mathlib.Data.List.Dedup

namespace Userfs

/-!
# The most recent keys

A sequence of assignments to keys is remembered up to a capacity: the keys that were
assigned last, in the order of their last assignment, each with its last value.  One more
assignment moves a key that is held to the end, adds a new one at the end, or adds it and
drops the oldest when the capacity is reached.
-/

universe u v

variable {K : Type u} {V : Type v} [DecidableEq K]

/-- The entries held after a sequence of assignments. -/
structure RecentKeys (capacity : Nat) (calls held : List (K × V)) : Prop where
  keys : held.map Prod.fst <:+ (calls.map Prod.fst).dedup
  length : held.length = min capacity (calls.map Prod.fst).dedup.length
  values : forall entry, entry ∈ held ->
    calls.reverse.find? (fun call => call.1 = entry.1) = some entry

/-- `dedup` keeps last occurrences, so a new last element replaces its earlier ones. -/
theorem dedup_concat (keys : List K) (key : K) :
    (keys ++ [key]).dedup = keys.dedup.filter (fun other => other ≠ key) ++ [key] := by
  induction keys with
  | nil => simp
  | cons first keys ih =>
      by_cases repeated : first ∈ keys
      · rw [List.cons_append, List.dedup_cons_of_mem (List.mem_append_left _ repeated), ih,
          List.dedup_cons_of_mem repeated]
      · by_cases same : first = key
        · rw [List.cons_append, List.dedup_cons_of_mem (by simp [same]), ih,
            List.dedup_cons_of_notMem repeated, List.filter_cons_of_neg (by simp [same])]
        · have new : first ∉ keys ++ [key] := by simp [repeated, same]
          rw [List.cons_append, List.dedup_cons_of_notMem new, ih, List.dedup_cons_of_notMem repeated,
            List.filter_cons_of_pos (by simpa using same), List.cons_append]

namespace RecentKeys

variable {capacity : Nat} {calls held front back : List (K × V)} {key : K} {value old : V}

theorem nil (capacity : Nat) : RecentKeys capacity ([] : List (K × V)) [] where
  keys := List.suffix_refl _
  length := (Nat.min_zero capacity).symm
  values := fun _ member => absurd member List.not_mem_nil

theorem nodup (recent : RecentKeys capacity calls held) : (held.map Prod.fst).Nodup :=
  (List.nodup_dedup _).sublist recent.keys.sublist

/-- A key that another assignment does not touch keeps its last value. -/
theorem find?_concat {entry : K × V} (other : entry.1 ≠ key)
    (found : calls.reverse.find? (fun call => call.1 = entry.1) = some entry) :
    (calls ++ [(key, value)]).reverse.find? (fun call => call.1 = entry.1) = some entry := by
  rw [List.reverse_concat, List.find?_cons_of_neg (by simpa using Ne.symm other)]
  exact found

theorem find?_concat_self :
    (calls ++ [(key, value)]).reverse.find? (fun call => call.1 = key) = some (key, value) := by
  rw [List.reverse_concat, List.find?_cons_of_pos (by simp)]

theorem filter_absent {keys : List K} (absent : key ∉ keys) :
    keys.filter (fun other => other ≠ key) = keys := by
  refine List.filter_eq_self.mpr (fun other member => ?_)
  simpa using fun equal : other = key => absent (by rw [← equal]; exact member)

/-- The values after one more assignment, once the other entries kept are known. -/
theorem values_concat (recent : RecentKeys capacity calls held) {kept : List (K × V)}
    (subset : kept ⊆ held) (absent : key ∉ kept.map Prod.fst) (entry : K × V)
    (member : entry ∈ kept ++ [(key, value)]) :
    (calls ++ [(key, value)]).reverse.find? (fun call => call.1 = entry.1) = some entry := by
  rcases List.mem_append.mp member with inside | last
  · have other : entry.1 ≠ key := by
      intro equal
      exact absent (by rw [← equal]; exact List.mem_map_of_mem inside)
    exact find?_concat other (recent.values entry (subset inside))
  · rw [List.mem_singleton.mp last]
    exact find?_concat_self

/-- Assigning to a key that is held moves it to the end. -/
theorem hit (recent : RecentKeys capacity calls (front ++ (key, old) :: back)) (value : V) :
    RecentKeys capacity (calls ++ [(key, value)]) ((front ++ back) ++ [(key, value)]) := by
  rcases recent.keys with ⟨older, split⟩
  have whole : (calls.map Prod.fst).dedup =
      (older ++ front.map Prod.fst) ++ key :: back.map Prod.fst := by
    rw [← split]
    simp
  have nodup := List.nodup_dedup (calls.map Prod.fst)
  rw [whole, List.nodup_middle] at nodup
  have absent := (List.nodup_cons.mp nodup).1
  have next : ((calls ++ [(key, value)]).map Prod.fst).dedup =
      older ++ (((front ++ back) ++ [(key, value)]).map Prod.fst) := by
    have kept : ((older ++ front.map Prod.fst) ++ key :: back.map Prod.fst).filter
        (fun other => other ≠ key) = (older ++ front.map Prod.fst) ++ back.map Prod.fst := by
      rw [List.filter_append, List.filter_cons_of_neg (by simp), ← List.filter_append,
        filter_absent absent]
    rw [List.map_append, List.map_cons, List.map_nil, dedup_concat, whole, kept]
    simp
  refine ⟨⟨older, next.symm⟩, ?_, recent.values_concat ?_ ?_⟩
  · have length := recent.length
    rw [whole] at length
    rw [next]
    simp only [List.length_append, List.length_cons, List.length_map, List.length_nil] at length ⊢
    omega
  · exact ((List.sublist_cons_self _ back).append_left front).subset
  · intro member
    apply absent
    simp only [List.map_append, List.mem_append] at member ⊢
    exact member.elim (fun inFront => Or.inl (Or.inr inFront)) Or.inr

/-- Below the capacity a new key is added. -/
theorem add (recent : RecentKeys capacity calls held) (absent : key ∉ held.map Prod.fst)
    (room : held.length < capacity) (value : V) :
    RecentKeys capacity (calls ++ [(key, value)]) (held ++ [(key, value)]) := by
  have length := recent.length
  have whole : held.map Prod.fst = (calls.map Prod.fst).dedup := by
    refine recent.keys.eq_of_length ?_
    rw [List.length_map]
    omega
  have next : ((calls ++ [(key, value)]).map Prod.fst).dedup = (held ++ [(key, value)]).map Prod.fst := by
    rw [List.map_append, List.map_cons, List.map_nil, dedup_concat, ← whole, filter_absent absent]
    simp
  refine ⟨⟨[], next.symm⟩, ?_, recent.values_concat (List.Subset.refl _) absent⟩
  rw [next, List.length_map, List.length_append, List.length_singleton]
  omega

/-- At the capacity a new key takes the place of the oldest one. -/
theorem replace {oldest : K × V} (recent : RecentKeys capacity calls (oldest :: back))
    (absent : key ∉ (oldest :: back).map Prod.fst) (full : capacity ≤ (oldest :: back).length)
    (value : V) : RecentKeys capacity (calls ++ [(key, value)]) (back ++ [(key, value)]) := by
  rcases recent.keys with ⟨older, split⟩
  have length := recent.length
  have next : ((calls ++ [(key, value)]).map Prod.fst).dedup =
      (older.filter (fun other => other ≠ key) ++ [oldest.1]) ++
        (back ++ [(key, value)]).map Prod.fst := by
    rw [List.map_append, List.map_cons, List.map_nil, dedup_concat, ← split, List.filter_append,
      filter_absent absent]
    simp
  refine ⟨⟨_, next.symm⟩, ?_, recent.values_concat (List.subset_cons_self _ _) ?_⟩
  · rw [next]
    simp only [List.length_append, List.length_cons, List.length_map, List.length_nil] at length full ⊢
    omega
  · exact fun member => absent (List.mem_cons_of_mem _ member)

end RecentKeys

end Userfs
