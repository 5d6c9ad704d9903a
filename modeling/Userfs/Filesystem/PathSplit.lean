import Userfs.Filesystem.PathCache

namespace Userfs.Filesystem

/-!
# Splitting a path before its last element

A creation uses two names for one thing: `filename`, which `get_parent_path` finds by
scanning the path backwards, and `name`, which `nameiparent` takes from the forward walk
of `namex` unless the parent is remembered.  The entry goes into the tree under the first
and into the name table under the second.  The backward scan takes digits zero at the end
of the path for terminators, so the two differ on a last element of zeros.
-/

section Scan

variable {parent name tail : List Char}

/-- A path `Q/c` with slashes behind it, cut before its last element. -/
theorem lastElement_joined (parentEnd : parent.getLast? ≠ some '/') (nonempty : name ≠ [])
    (solid : '/' ∉ name) (slashes : forall char, char ∈ tail -> char = '/') :
    LastElement (parent ++ '/' :: (name ++ tail)) parent ['/'] name tail where
  split := rfl
  parentEnd := by
    intro rest backwards
    apply parentEnd
    rw [← List.head?_reverse, backwards]
    rfl
  separated := List.cons_ne_nil _ _
  slashes := fun char member => List.mem_singleton.mp member
  nonempty := nonempty
  solid := fun char member slash => solid (slash ▸ member)
  tail := slashes

/-- Only a last element of zeros that ends the path is taken for the end of the string. -/
theorem not_zeroEnd_joined (solid : '/' ∉ name) (slashes : forall char, char ∈ tail -> char = '/')
    (visible : ¬ (tail = [] ∧ forall char, char ∈ name -> char = '0')) :
    ¬ ZeroEnd (parent ++ '/' :: (name ++ tail)) := by
  rintro ⟨last, stop⟩
  rcases List.eq_nil_or_concat tail with bare | ⟨front, char, ends⟩
  · -- nothing follows the element, so one of its characters stops the scan
    rw [bare, List.append_nil, List.reverse_append, List.reverse_cons, List.append_assoc,
      List.dropWhile_append] at stop
    by_cases zeros : name.reverse.dropWhile (fun char => char = '0') = []
    · have every := List.dropWhile_eq_nil_iff.mp zeros
      exact visible ⟨bare, fun char member => by simpa using every char (List.mem_reverse.mpr member)⟩
    · rw [if_neg (by simpa using zeros), List.head?_append_of_ne_nil _ zeros] at stop
      have member := (List.dropWhile_suffix _).subset (List.mem_of_mem_head? stop)
      exact solid (List.mem_reverse.mp member)
  · have slash : char = '/' := slashes char (by rw [ends]; simp)
    have final : (parent ++ '/' :: (name ++ tail)).getLast? = some char := by
      rw [ends, List.concat_eq_append, ← List.append_assoc, ← List.cons_append,
        ← List.append_assoc, List.getLast?_concat]
    rw [final, slash] at last
    cases last

/-- A last element of zeros is skipped together with the slash before it, and the scan
goes on into the parent. -/
theorem parentScan_zeros (parentEnd : parent.getLast? ≠ some '/')
    (zeros : forall char, char ∈ name -> char = '0') :
    parentScan (parent ++ '/' :: name) = parent.reverse.dropWhile (fun char => char ≠ '/') := by
  have kept : parent.reverse.dropWhile (fun char => char = '/') = parent.reverse := by
    cases backwards : parent.reverse with
    | nil => rfl
    | cons char rest =>
        have solid : char ≠ '/' := by
          intro slash
          apply parentEnd
          rw [← List.head?_reverse, backwards, slash]
          rfl
        exact List.dropWhile_cons_of_neg (by simpa using solid)
  have skipped : (parent ++ '/' :: name).reverse.dropWhile (fun char => char = '0') =
      '/' :: parent.reverse := by
    rw [List.reverse_append, List.reverse_cons, List.append_assoc,
      dropWhile_all (fun char member => by simpa using zeros char (List.mem_reverse.mp member))]
    rfl
  rw [parentScan, skipped, List.dropWhile_cons_of_pos (by rfl), kept]

theorem getParentPath_zeros (rooted : parent ≠ []) (parentEnd : parent.getLast? ≠ some '/')
    (zeros : forall char, char ∈ name -> char = '0') :
    getParentPath (parent ++ '/' :: name) ≠ some (parent, name) := by
  intro found
  have scan := parentScan_zeros parentEnd zeros
  rw [getParentPath] at found
  split at found
  · cases found
  · rcases Option.map_eq_some_iff.mp found with ⟨next, _, pair⟩
    have same : List.length _ = parent.length := congrArg List.length (congrArg Prod.fst pair)
    rw [scan, List.length_reverse] at same
    have outer := (List.dropWhile_suffix (fun char => decide (char = '/'))
      (l := parent.reverse.dropWhile (fun char => char ≠ '/'))).length_le
    -- the last character of the parent is not a slash, so the scan drops it
    cases backwards : parent.reverse with
    | nil => exact rooted (List.reverse_eq_nil_iff.mp backwards)
    | cons char rest =>
        have solid : char ≠ '/' := by
          intro slash
          apply parentEnd
          rw [← List.head?_reverse, backwards, slash]
          rfl
        have inner := (List.dropWhile_suffix (fun char => decide (char ≠ '/')) (l := rest)).length_le
        have whole := congrArg List.length backwards
        rw [List.length_reverse, List.length_cons] at whole
        rw [backwards, List.dropWhile_cons_of_pos (by simpa using solid)] at same outer
        omega

end Scan

/-! ## The name of the forward walk -/

section Walk

variable {ns : Namespace}

/-- The walk to the parent yields the last element of the path. -/
theorem namexLoop_last (rounds ip : Nat) (path : List Char) (name : Name) :
    Ensures (namexLoop true rounds ip path name) ns
      (fun found _ => forall dir last, found = some (dir, last) ->
        Exists fun front => Exists fun element =>
          elements path = front ++ [element] ∧ last = element.take dirsiz)
      (fun _ _ => True) := by
  induction rounds generalizing ns ip path name with
  | zero => exact Ensures.throw_iff.mpr trivial
  | succ rounds ih =>
      rw [namexLoop]
      cases cut : getNextName path with
      | none =>
          simp only [if_true, Ensures.bind_iff, iput, ensures_onInode, Ensures.pure_iff, reduceCtorEq,
            false_implies, implies_true]
      | some pair =>
          rcases getNextName_eq_some cut with ⟨element, first, nameEq⟩
          simp only [Ensures.bind_iff, ensures_nsInode]
          split
          · simp only [Ensures.bind_iff, iput, ensures_onInode, Ensures.pure_iff, reduceCtorEq,
              false_implies, implies_true]
          split
          · rename_i stops
            refine Ensures.pure_iff.mpr ?_
            intro dir last found
            cases found
            refine ⟨[], element, ?_, nameEq⟩
            rw [first.elements, first.last.mp stops.2]
            rfl
          · rw [Ensures.bind_iff]
            refine Ensures.always.mono ?_ (fun _ _ _ => trivial)
            intro next _ _
            simp only [Ensures.bind_iff, iput, ensures_onInode]
            cases next with
            | none =>
                simp only [Ensures.pure_iff, reduceCtorEq, false_implies, implies_true]
            | some next =>
                refine (ih next pair.2 pair.1).mono ?_ (fun _ _ _ => trivial)
                intro found _ reached dir last same
                rcases reached dir last same with ⟨front, final, split, lastEq⟩
                exact ⟨element :: front, final, by rw [first.elements, split]; rfl, lastEq⟩

theorem namex_last (path : List Char) :
    Ensures (namex path true) ns
      (fun found _ => forall dir last, found = some (dir, last) ->
        Exists fun front => Exists fun element =>
          elements path = front ++ [element] ∧ last = element.take dirsiz)
      (fun _ _ => True) := by
  rw [namex]
  split
  · rename_i rest start
    rw [Ensures.bind_iff]
    refine Ensures.always.mono ?_ (fun _ _ _ => trivial)
    intro root _ _
    cases root with
    | none => exact Ensures.throw_iff.mpr trivial
    | some ip =>
        refine (namexLoop_last _ ip _ _).mono ?_ (fun _ _ _ => trivial)
        intro found _ reached dir last same
        rcases reached dir last same with ⟨front, element, split, lastEq⟩
        rw [stripMountpoint] at start
        split at start
        · -- the mount point only adds elements in front
          rename_i mounted
          have whole := List.prefix_iff_eq_append.mp (List.isPrefixOf_iff_prefix.mp mounted)
          rw [start] at whole
          refine ⟨elements mountpoint ++ front, element, ?_, lastEq⟩
          rw [elements_slash] at split
          rw [← whole, elements_append_slash, split, List.append_assoc]
        · rw [start]
          exact ⟨front, element, split, lastEq⟩
  · exact Ensures.throw_iff.mpr trivial

end Walk

/-- On a path `Q/c` the backward scan finds `Q` and `c`, and the name that a walking
`nameiparent` yields is the one of the scan, exactly when `c` is not made of zeros up to
the end of the path. -/
theorem parent_path_splits_iff {parent name tail : List Char} (rooted : parent.head? = some '/')
    (parentEnd : parent.getLast? ≠ some '/') (nonempty : name ≠ []) (solid : '/' ∉ name)
    (short : name.length < dirsiz) (slashes : forall char, char ∈ tail -> char = '/') :
    (getParentPath (parent ++ '/' :: (name ++ tail)) = some (parent, name) ∧
      forall parentPath filename (ns : Namespace),
        getParentPath (parent ++ '/' :: (name ++ tail)) = some (parentPath, filename) ->
        ns.dlookupHash parentPath = none ->
        Ensures (nameiparent (parent ++ '/' :: (name ++ tail))) ns
          (fun found _ => forall dir last, found = some (dir, last) -> last = filename)
          (fun _ _ => True)) <->
      ¬ (tail = [] ∧ forall char, char ∈ name -> char = '0') := by
  constructor
  · rintro ⟨splits, _⟩ ⟨bare, zeros⟩
    rw [bare, List.append_nil] at splits
    have some : parent ≠ [] := by
      intro empty
      rw [empty] at rooted
      cases rooted
    exact getParentPath_zeros some parentEnd zeros splits
  · intro visible
    have joined := lastElement_joined parentEnd nonempty solid slashes
    have cut := joined.getParentPath_eq (not_zeroEnd_joined solid slashes visible)
    rw [List.take_of_length_le (Nat.le_of_lt short)] at cut
    refine ⟨cut, ?_⟩
    intro parentPath filename ns found unknown
    rw [cut] at found
    cases found
    rw [nameiparent, cut]
    simp only [Ensures.bind_iff, Ensures.get_iff, unknown]
    refine (namex_last _).mono ?_ (fun _ _ _ => trivial)
    intro found next reached
    cases found with
    | none => simp only [Ensures.pure_iff, reduceCtorEq, false_implies, implies_true]
    | some pair =>
        rcases reached pair.1 pair.2 rfl with ⟨front, element, split, lastEq⟩
        -- both splits end with the same element
        rw [joined.elements_eq] at split
        have same := (List.append_inj' split rfl).2
        cases same
        rw [List.take_of_length_le (Nat.le_of_lt short)] at lastEq
        rw [Ensures.bind_iff]
        refine Ensures.always.mono ?_ (fun _ _ _ => trivial)
        intro _ _ _
        refine Ensures.pure_iff.mpr ?_
        intro dir last equal
        cases equal
        exact lastEq

/-- The path `/a/00/`: the slash at its end shields the zeros. -/
theorem parent_path_splits_shielded :
    ¬ ((['/'] : List Char) = [] ∧ forall char, char ∈ ['0', '0'] -> char = '0') ∧
      getParentPath ['/', 'a', '/', '0', '0', '/'] = some (['/', 'a'], ['0', '0']) :=
  have shielded : ¬ ((['/'] : List Char) = [] ∧ forall char, char ∈ ['0', '0'] -> char = '0') := by
    decide
  ⟨shielded, ((@parent_path_splits_iff ['/', 'a'] ['0', '0'] ['/'] (by decide) (by decide) (by simp)
    (by simp) (by decide) (by simp)).mpr shielded).1⟩

/-- The path `/a/0` is split into the empty path and `a`. -/
theorem parent_path_skips_zero :
    getParentPath ['/', 'a', '/', '0'] = some ([], ['a']) := by
  decide +kernel

end Userfs.Filesystem
