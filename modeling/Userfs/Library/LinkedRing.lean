import Mathlib.Data.List.Nodup
import Mathlib.Logic.Function.Basic

namespace Userfs

/-!
# Circular doubly linked lists

The links of intrusive lists are kept in two maps, one for each direction.  A list head
and its entries form a ring: following `next` from the head meets the entries in order and
comes back, and `prev` leads the other way.  Unlinking an entry and adding one at the tail
write only to links of the ring they work on, so rings without common links do not disturb
each other.
-/

universe u

/-- The link fields of all list heads. -/
structure Links (L : Type u) where
  next : L -> L
  prev : L -> L

namespace Links

variable {L : Type u}

section Operations

variable [DecidableEq L]

/-- `__list_del`: make two links neighbours. -/
def join (links : Links L) (first second : L) : Links L where
  next := Function.update links.next first second
  prev := Function.update links.prev second first

/-- Set both fields of a link. -/
def point (links : Links L) (entry target : L) : Links L where
  next := Function.update links.next entry target
  prev := Function.update links.prev entry target

/-- `INIT_LIST_HEAD`. -/
def initListHead (links : Links L) (entry : L) : Links L :=
  links.point entry entry

/-- `list_del`; the fields of the entry become `LIST_POISON`. -/
def listDel (links : Links L) (poison entry : L) : Links L :=
  (links.join (links.prev entry) (links.next entry)).point entry poison

/-- `list_del_init`. -/
def listDelInit (links : Links L) (entry : L) : Links L :=
  (links.join (links.prev entry) (links.next entry)).initListHead entry

/-- `__list_add`. -/
def listAdd (links : Links L) (new prev next : L) : Links L where
  next := Function.update (Function.update links.next new next) prev new
  prev := Function.update (Function.update links.prev next new) new prev

/-- `list_add_tail`. -/
def listAddTail (links : Links L) (new head : L) : Links L :=
  links.listAdd new (links.prev head) head

/-- `list_for_each` up to the first entry that a visit accepts. -/
def find {E : Type} (outOfFuel : E) (visit : L -> Except E Bool) (links : Links L) (head : L) :
    Nat -> L -> Except E (Option L)
  | 0, _ => .error outOfFuel
  | fuel + 1, p =>
      if p = head then .ok none
      else
        match visit p with
        | .error fault => .error fault
        | .ok true => .ok (some p)
        | .ok false => find outOfFuel visit links head fuel (links.next p)

end Operations

/-! ## Paths and rings -/

/-- From one link over entries to another. -/
def Path (links : Links L) : L -> List L -> L -> Prop
  | first, [], last => links.next first = last ∧ links.prev last = first
  | first, entry :: rest, last =>
      links.next first = entry ∧ links.prev entry = first ∧ links.Path entry rest last

/-- A list head with its entries. -/
structure Ring (links : Links L) (head : L) (entries : List L) : Prop where
  nodup : (head :: entries).Nodup
  path : links.Path head entries head

/-- Two states of the links that agree on some of them. -/
def Agree (links other : Links L) (kept : List L) : Prop :=
  forall link, link ∈ kept -> other.next link = links.next link ∧ other.prev link = links.prev link

section Paths

variable {links other : Links L} {first last entry new : L} {front back entries : List L}

theorem path_append : links.Path first (front ++ entry :: back) last <->
    links.Path first front entry ∧ links.Path entry back last := by
  induction front generalizing first with
  | nil => exact (and_assoc).symm
  | cons head front ih =>
      change _ ∧ _ ∧ links.Path head (front ++ entry :: back) last <-> (_ ∧ _ ∧ _) ∧ _
      rw [ih, and_assoc, and_assoc]

/-- A path depends on `next` up to its last entry and on `prev` behind its first link. -/
theorem Path.congr (path : links.Path first entries last)
    (next : forall link, link ∈ first :: entries -> other.next link = links.next link)
    (prev : forall link, link ∈ entries ++ [last] -> other.prev link = links.prev link) :
    other.Path first entries last := by
  induction entries generalizing first with
  | nil => exact ⟨(next first List.mem_cons_self).trans path.1, (prev last List.mem_cons_self).trans path.2⟩
  | cons entry rest ih =>
      refine ⟨(next first List.mem_cons_self).trans path.1,
        (prev entry List.mem_cons_self).trans path.2.1, ih path.2.2 ?_ ?_⟩
      · exact fun link member => next link (List.mem_cons_of_mem _ member)
      · exact fun link member => prev link (List.mem_cons_of_mem _ member)

theorem Path.prev_mem (path : links.Path first entries last) :
    links.prev last ∈ first :: entries := by
  induction entries generalizing first with
  | nil =>
      rw [path.2]
      exact List.mem_cons_self
  | cons entry rest ih => exact List.mem_cons_of_mem _ (ih path.2.2)

theorem Path.next_mem (path : links.Path first entries last) :
    links.next first ∈ entries ++ [last] := by
  cases entries with
  | nil =>
      rw [path.1]
      exact List.mem_cons_self
  | cons entry rest =>
      rw [path.1]
      exact List.mem_cons_self

variable [DecidableEq L]

/-- Joining the neighbours of an entry takes it out of a path. -/
theorem Path.join (toEntry : links.Path first front entry) (fromEntry : links.Path entry back last)
    (starts : (first :: (front ++ entry :: back)).Nodup)
    (ends : ((front ++ entry :: back) ++ [last]).Nodup) :
    (links.join (links.prev entry) (links.next entry)).Path first (front ++ back) last := by
  induction front generalizing first with
  | nil =>
      rcases toEntry with ⟨_, before⟩
      rw [before]
      cases back with
      | nil =>
          rw [fromEntry.1]
          exact ⟨Function.update_self _ _ _, Function.update_self _ _ _⟩
      | cons second rest =>
          rw [fromEntry.1]
          refine ⟨Function.update_self _ _ _, Function.update_self _ _ _, fromEntry.2.2.congr ?_ ?_⟩
          · intro link member
            refine Function.update_of_ne (fun equal => ?_) _ _
            rw [equal] at member
            exact (List.nodup_cons.mp starts).1 (List.mem_cons_of_mem _ member)
          · intro link member
            refine Function.update_of_ne (fun equal => ?_) _ _
            rw [equal] at member
            exact (List.nodup_cons.mp (List.nodup_cons.mp ends).2).1 member
  | cons second rest ih =>
      have inside : links.prev entry ∈ second :: rest := toEntry.2.2.prev_mem
      have behind : links.next entry ∈ back ++ [last] := fromEntry.next_mem
      refine ⟨?_, ?_, ih toEntry.2.2 (List.nodup_cons.mp starts).2 (List.nodup_cons.mp ends).2⟩
      · refine (Function.update_of_ne (fun equal => ?_) _ _).trans toEntry.1
        rw [← equal] at inside
        exact (List.nodup_cons.mp starts).1 (List.mem_append_left _ inside)
      · refine (Function.update_of_ne (fun equal => ?_) _ _).trans toEntry.2.1
        rw [← equal] at behind
        refine (List.nodup_cons.mp ends).1 ?_
        simp only [List.append_eq, List.mem_append, List.mem_cons] at behind ⊢
        rcases behind with member | member
        · exact Or.inl (Or.inr (Or.inr member))
        · exact Or.inr member

/-- A new link added before the last one. -/
theorem Path.add (path : links.Path first entries last) (starts : (first :: entries).Nodup)
    (ends : last ∉ entries) (fresh : new ∉ first :: entries ++ [last]) :
    (links.listAdd new (links.prev last) last).Path first (entries ++ [new]) last := by
  induction entries generalizing first with
  | nil =>
      have notFirst : first ≠ new := fun equal => fresh (by rw [equal]; exact List.mem_cons_self)
      have notLast : last ≠ new := fun equal => fresh (by rw [equal]; simp)
      rw [path.2]
      refine ⟨Function.update_self _ _ _, Function.update_self _ _ _, ?_, ?_⟩
      · exact (Function.update_of_ne notFirst.symm _ _).trans (Function.update_self _ _ _)
      · exact (Function.update_of_ne notLast _ _).trans (Function.update_self _ _ _)
  | cons entry rest ih =>
      have inside : links.prev last ∈ entry :: rest := path.2.2.prev_mem
      have notFirst : first ≠ new := fun equal => fresh (by rw [equal]; exact List.mem_cons_self)
      have notEntry : entry ≠ new := fun equal => fresh (by rw [equal]; simp)
      have notLast : entry ≠ last := fun equal => ends (by rw [equal]; exact List.mem_cons_self)
      refine ⟨?_, ?_, ih path.2.2 (List.nodup_cons.mp starts).2
        (fun member => ends (List.mem_cons_of_mem _ member))
        (fun member => fresh (List.mem_cons_of_mem _ member))⟩
      · have apart : first ≠ links.prev last := by
          intro equal
          rw [← equal] at inside
          exact (List.nodup_cons.mp starts).1 inside
        exact ((Function.update_of_ne apart _ _).trans (Function.update_of_ne notFirst _ _)).trans path.1
      · exact ((Function.update_of_ne notEntry _ _).trans (Function.update_of_ne notLast _ _)).trans
          path.2.1

end Paths

section Rings

variable {links other : Links L} {head entry new : L} {front back entries kept : List L}

theorem Agree.trans {third : Links L} (first : Agree links other kept)
    (second : Agree other third kept) : Agree links third kept :=
  fun link member =>
    ⟨(second link member).1.trans (first link member).1, (second link member).2.trans (first link member).2⟩

/-- A ring keeps its entries while its links do not change. -/
theorem Ring.congr (ring : links.Ring head entries) (agree : Agree links other (head :: entries)) :
    other.Ring head entries := by
  refine ⟨ring.nodup, ring.path.congr (fun link member => (agree link member).1) ?_⟩
  intro link member
  refine (agree link ?_).2
  rcases List.mem_append.mp member with inside | last
  · exact List.mem_cons_of_mem _ inside
  · rw [List.mem_singleton.mp last]
    exact List.mem_cons_self

/-- The neighbours of an entry lie on its ring. -/
theorem Ring.neighbours (ring : links.Ring head (front ++ entry :: back)) :
    links.prev entry ∈ head :: (front ++ entry :: back) ∧
      links.next entry ∈ head :: (front ++ entry :: back) := by
  rcases path_append.mp ring.path with ⟨toEntry, fromEntry⟩
  constructor
  · have member := toEntry.prev_mem
    simp only [List.mem_cons, List.mem_append] at member ⊢
    rcases member with equal | inside
    · exact Or.inl equal
    · exact Or.inr (Or.inl inside)
  · have member := fromEntry.next_mem
    simp only [List.mem_cons, List.mem_append, List.not_mem_nil, or_false] at member ⊢
    rcases member with inside | equal
    · exact Or.inr (Or.inr (Or.inr inside))
    · exact Or.inl equal

variable [DecidableEq L]

/-- A link whose own fields are set is the only one that changes. -/
theorem agree_point (target : L) (outside : entry ∉ kept) : Agree links (links.point entry target) kept := by
  intro link member
  have apart : link ≠ entry := fun equal => outside (by rw [← equal]; exact member)
  exact ⟨Function.update_of_ne apart _ _, Function.update_of_ne apart _ _⟩

/-- Unlinking takes an entry out of its ring, whatever its own fields become. -/
theorem Ring.unlink (ring : links.Ring head (front ++ entry :: back)) (target : L) :
    ((links.join (links.prev entry) (links.next entry)).point entry target).Ring head (front ++ back) := by
  rcases path_append.mp ring.path with ⟨toEntry, fromEntry⟩
  have nodup := ring.nodup
  have turned : ((front ++ entry :: back) ++ [head]).Nodup :=
    (@List.nodup_append_comm _ [head] (front ++ entry :: back)).mp nodup
  have outside : entry ∉ head :: (front ++ back) := by
    have moved := (@List.nodup_middle _ entry (head :: front) back).mp nodup
    exact (List.nodup_cons.mp moved).1
  have remaining : (head :: (front ++ back)).Nodup :=
    nodup.sublist (((List.sublist_cons_self entry back).append_left front).cons_cons head)
  have joined : (links.join (links.prev entry) (links.next entry)).Ring head (front ++ back) :=
    ⟨remaining, toEntry.join fromEntry nodup turned⟩
  exact joined.congr (agree_point target outside)

/-- Links outside the ring of an unlinked entry do not change. -/
theorem Ring.agree_unlink (ring : links.Ring head (front ++ entry :: back)) (target : L)
    (apart : forall link, link ∈ kept -> link ∉ head :: (front ++ entry :: back)) :
    Agree links ((links.join (links.prev entry) (links.next entry)).point entry target) kept := by
  rcases ring.neighbours with ⟨before, behind⟩
  have here : entry ∈ head :: (front ++ entry :: back) := by simp
  intro link member
  have notPrev : link ≠ links.prev entry := fun equal => apart link member (by rw [equal]; exact before)
  have notNext : link ≠ links.next entry := fun equal => apart link member (by rw [equal]; exact behind)
  have notEntry : link ≠ entry := fun equal => apart link member (by rw [equal]; exact here)
  exact ⟨(Function.update_of_ne notEntry _ _).trans (Function.update_of_ne notPrev _ _),
    (Function.update_of_ne notEntry _ _).trans (Function.update_of_ne notNext _ _)⟩

/-- `list_add_tail` adds an entry that is not on the ring. -/
theorem Ring.addTail (ring : links.Ring head entries) (fresh : new ∉ head :: entries) :
    (links.listAddTail new head).Ring head (entries ++ [new]) := by
  have outside : new ∉ head :: entries ++ [head] := by
    intro member
    rcases List.mem_append.mp member with inside | last
    · exact fresh inside
    · exact fresh (by rw [List.mem_singleton.mp last]; exact List.mem_cons_self)
  refine ⟨?_, ring.path.add ring.nodup (List.nodup_cons.mp ring.nodup).1 outside⟩
  rw [← List.cons_append]
  exact List.nodup_append.mpr ⟨ring.nodup, List.nodup_singleton new, fun link inside other last => by
    rw [List.mem_singleton.mp last]
    exact fun equal => fresh (by rw [← equal]; exact inside)⟩

/-- Links that are neither the new one nor on the ring do not change. -/
theorem Ring.agree_addTail (ring : links.Ring head entries)
    (apart : forall link, link ∈ kept -> link ∉ new :: head :: entries) :
    Agree links (links.listAddTail new head) kept := by
  have before : links.prev head ∈ new :: head :: entries := List.mem_cons_of_mem _ ring.path.prev_mem
  intro link member
  have notPrev : link ≠ links.prev head := fun equal => apart link member (by rw [equal]; exact before)
  have notNew : link ≠ new := fun equal => apart link member (by rw [equal]; exact List.mem_cons_self)
  have notHead : link ≠ head := fun equal => apart link member (by rw [equal]; simp)
  exact ⟨(Function.update_of_ne notPrev _ _).trans (Function.update_of_ne notNew _ _),
    (Function.update_of_ne notNew _ _).trans (Function.update_of_ne notHead _ _)⟩

/-- A walk over a ring visits its entries in order. -/
theorem Ring.find_eq {E : Type} {visit : L -> Except E Bool} {test : L -> Bool}
    (ring : links.Ring head entries) (outOfFuel : E)
    (visits : forall link, link ∈ entries -> visit link = .ok (test link))
    {fuel : Nat} (enough : entries.length < fuel) :
    links.find outOfFuel visit head fuel (links.next head) = .ok (entries.find? test) := by
  have outside := (List.nodup_cons.mp ring.nodup).1
  have walk : forall (rest : List L) (start : L) (fuel : Nat), links.Path start rest head -> head ∉ rest ->
      (forall link, link ∈ rest -> visit link = .ok (test link)) -> rest.length < fuel ->
      links.find outOfFuel visit head fuel (links.next start) = .ok (rest.find? test) := by
    intro rest
    induction rest with
    | nil =>
        intro start fuel path _ _ enough
        cases fuel with
        | zero => exact absurd enough (Nat.not_lt_zero _)
        | succ fuel => rw [find, if_pos path.1, List.find?_nil]
    | cons link rest ih =>
        intro start fuel path apart visits enough
        cases fuel with
        | zero => exact absurd enough (Nat.not_lt_zero _)
        | succ fuel =>
            have here : links.next start ≠ head := by
              rw [path.1]
              exact fun equal => apart (by rw [equal]; exact List.mem_cons_self)
            have later := ih link fuel path.2.2 (fun member => apart (List.mem_cons_of_mem _ member))
              (fun other member => visits other (List.mem_cons_of_mem _ member))
              (by simpa using enough)
            rw [find, if_neg here, path.1, visits link List.mem_cons_self]
            cases tested : test link with
            | true =>
                rw [List.find?_cons_of_pos tested]
            | false =>
                rw [List.find?_cons_of_neg (by simp [tested])]
                exact later
  exact walk entries head fuel ring.path outside visits enough

end Rings

end Links

end Userfs
