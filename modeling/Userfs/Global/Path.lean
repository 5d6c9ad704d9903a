import Mathlib.Data.List.Basic
import Mathlib.Data.List.TakeWhile

namespace Userfs

/-!
# Path strings

`global/util.h` takes paths apart with pointers into NUL-terminated strings; here a
string is the list of its characters.  `get_next_name` cuts off the first element
of a path, `get_parent_path` the last one, walking backwards from the end.  The
latter is meant to skip terminating NULs but compares with the digit `'0'`, so a last
element made of zeros is skipped together with the slash before it.
-/

/-- `DIRSIZ`, the size of a name buffer. -/
def dirsiz : Nat := 32

/-- `MAX_PATH`, the size of a path buffer. -/
def maxPath : Nat := 1024

/-- `mountpoint`. -/
def mountpoint : List Char :=
  ['/', 'm', 'n', 't', '/', 'p', 'm', 'e', 'm', '_', 'e', 'm', 'u', 'l']

/-- `get_next_name`: the name and the rest of the path.  A longer element is cut
off at `DIRSIZ` bytes. -/
def getNextName (path : List Char) : Option (List Char × List Char) :=
  match path.dropWhile (fun char => char = '/') with
  | [] => none
  | char :: rest =>
      some (((char :: rest).takeWhile (fun char => char ≠ '/')).take dirsiz,
        ((char :: rest).dropWhile (fun char => char ≠ '/')).dropWhile (fun char => char = '/'))

/-- The characters `get_parent_path` has not skipped when it stands on the slash
before the last element, last one first. -/
def parentScan (path : List Char) : List Char :=
  ((path.reverse.dropWhile (fun char => char = '0')).dropWhile (fun char => char = '/')).dropWhile
    (fun char => char ≠ '/')

/-- `get_parent_path`: the path of the parent and the name. -/
def getParentPath (path : List Char) : Option (List Char × List Char) :=
  let parent := ((parentScan path).dropWhile (fun char => char = '/')).reverse
  if parentScan path = [] then none
  else (getNextName (path.drop parent.length)).map (fun next => (parent, next.1))

/-! ## The elements of a path -/

/-- The parts between slashes that are not empty. -/
def elements : List Char -> List (List Char)
  | [] => []
  | char :: rest =>
      if char = '/' then elements rest
      else
        match rest with
        | [] => [[char]]
        | next :: _ =>
            if next = '/' then [char] :: elements rest
            else
              match elements rest with
              | [] => [[char]]
              | first :: others => (char :: first) :: others

@[simp]
theorem elements_slash (rest : List Char) : elements ('/' :: rest) = elements rest := by
  rw [elements.eq_def]
  simp

theorem elements_ne_nil {char : Char} (solid : char ≠ '/') (rest : List Char) :
    elements (char :: rest) ≠ [] := by
  cases rest with
  | nil => simp [elements, solid]
  | cons next tail =>
      rw [elements, if_neg solid]
      by_cases slash : next = '/'
      · simp [slash]
      · simp only [if_neg slash]
        cases elements (next :: tail) <;> simp

/-- A slash separates the elements on its two sides. -/
theorem elements_append_slash (front back : List Char) :
    elements (front ++ '/' :: back) = elements front ++ elements back := by
  induction front with
  | nil => simp [elements]
  | cons char front ih =>
      by_cases slash : char = '/'
      · rw [slash, List.cons_append, elements_slash, elements_slash, ih]
      · cases front with
        | nil => simp [elements, slash]
        | cons next tail =>
            rw [List.cons_append, List.cons_append, elements, elements, if_neg slash, if_neg slash]
            by_cases nextSlash : next = '/'
            · simp only [if_pos nextSlash]
              rw [← List.cons_append, ih]
              rfl
            · simp only [if_neg nextSlash]
              rw [← List.cons_append, ih]
              have some := elements_ne_nil nextSlash tail
              cases parts : elements (next :: tail) with
              | nil => exact absurd parts some
              | cons first others => rfl

/-- A string without slashes is one element. -/
theorem elements_solid {element : List Char} (nonempty : element ≠ [])
    (solid : forall char, char ∈ element -> char ≠ '/') : elements element = [element] := by
  induction element with
  | nil => exact absurd rfl nonempty
  | cons char rest ih =>
      have here := solid char List.mem_cons_self
      cases rest with
      | nil => simp [elements, here]
      | cons next tail =>
          have there := solid next (List.mem_cons_of_mem _ List.mem_cons_self)
          have rest := ih (List.cons_ne_nil _ _)
            (fun other member => solid other (List.mem_cons_of_mem _ member))
          rw [elements, if_neg here]
          simp only [if_neg there, rest]

theorem elements_slashes {slashes : List Char} (every : forall char, char ∈ slashes -> char = '/')
    (rest : List Char) : elements (slashes ++ rest) = elements rest := by
  induction slashes with
  | nil => rfl
  | cons char slashes ih =>
      rw [every char List.mem_cons_self, List.cons_append, elements_slash]
      exact ih (fun other member => every other (List.mem_cons_of_mem _ member))

/-! ## Cutting off the first element -/

/-- The start of a path: slashes, an element, slashes, and a rest that does not start
with one. -/
structure FirstElement (path element rest : List Char) : Prop where
  nonempty : element ≠ []
  solid : forall char, char ∈ element -> char ≠ '/'
  elements : elements path = element :: Userfs.elements rest
  shorter : rest.length < path.length
  last : rest = [] <-> Userfs.elements rest = []

theorem takeWhile_solid (path : List Char) (char : Char)
    (member : char ∈ path.takeWhile (fun char => char ≠ '/')) : char ≠ '/' := by
  simpa using List.mem_takeWhile_imp member

theorem takeWhile_slashes (path : List Char) (char : Char)
    (member : char ∈ path.takeWhile (fun char => char = '/')) : char = '/' := by
  simpa using List.mem_takeWhile_imp member

/-- Leading slashes do not matter. -/
theorem elements_dropWhile (path : List Char) :
    elements (path.dropWhile (fun char => char = '/')) = elements path := by
  have split := List.takeWhile_append_dropWhile (p := fun char => decide (char = '/')) (l := path)
  conv_rhs => rw [← split]
  exact (elements_slashes (takeWhile_slashes path) _).symm

theorem dropWhile_head {test : Char -> Bool} {path rest : List Char} {char : Char}
    (dropped : path.dropWhile test = char :: rest) : test char = false := by
  have head := List.head?_dropWhile_not test path
  rw [dropped] at head
  simpa using head

/-- What is left behind slashes is empty exactly if it has no element. -/
theorem dropWhile_eq_nil_iff (path : List Char) :
    path.dropWhile (fun char => char = '/') = [] <-> elements path = [] := by
  rw [← elements_dropWhile path]
  cases left : path.dropWhile (fun char => char = '/') with
  | nil => simp [elements]
  | cons char rest =>
      have solid : char ≠ '/' := by simpa using dropWhile_head left
      simp [elements_ne_nil solid rest]

theorem getNextName_eq_none {path : List Char} : getNextName path = none <-> elements path = [] := by
  rw [← dropWhile_eq_nil_iff, getNextName]
  cases path.dropWhile (fun char => char = '/') <;> simp

/-- An element and what follows it. -/
theorem elements_cut (path : List Char)
    (some : path.takeWhile (fun char => char ≠ '/') ≠ []) :
    elements path = path.takeWhile (fun char => char ≠ '/') ::
      elements (path.dropWhile (fun char => char ≠ '/')) := by
  have split := List.takeWhile_append_dropWhile (p := fun char => decide (char ≠ '/')) (l := path)
  have one := elements_solid some (takeWhile_solid path)
  cases left : path.dropWhile (fun char => char ≠ '/') with
  | nil =>
      rw [left, List.append_nil] at split
      rw [split] at one ⊢
      simpa [elements] using one
  | cons char rest =>
      have slash : char = '/' := by simpa using dropWhile_head left
      rw [left, slash] at split
      conv_lhs => rw [← split]
      rw [elements_append_slash, one, slash, elements_slash]
      rfl

/-- `get_next_name` cuts off the first element. -/
theorem getNextName_eq_some {path name rest : List Char}
    (next : getNextName path = some (name, rest)) :
    Exists fun element => FirstElement path element rest ∧ name = element.take dirsiz := by
  rw [getNextName] at next
  cases body : path.dropWhile (fun char => char = '/') with
  | nil =>
      rw [body] at next
      cases next
  | cons char tail =>
      rw [body] at next
      have solid : char ≠ '/' := by simpa using dropWhile_head body
      rcases Prod.mk.inj (Option.some.inj next) with ⟨nameEq, restEq⟩
      have nonempty : (char :: tail).takeWhile (fun char => char ≠ '/') ≠ [] := by
        simp [solid]
      have cut := elements_cut (char :: tail) nonempty
      have whole : elements path = elements (char :: tail) := by
        rw [← body, elements_dropWhile]
      have after := elements_dropWhile ((char :: tail).dropWhile (fun char => char ≠ '/'))
      rw [restEq] at after
      refine ⟨(char :: tail).takeWhile (fun char => char ≠ '/'), ?_, nameEq.symm⟩
      refine ⟨nonempty, takeWhile_solid _, ?_, ?_, ?_⟩
      · rw [whole, cut, after]
      · have bodyLength : (char :: tail).length ≤ path.length := by
          rw [← body]
          exact (List.dropWhile_suffix _).length_le
        have afterLength : ((char :: tail).dropWhile (fun char => char ≠ '/')).length ≤
            tail.length := by
          rw [List.dropWhile_cons_of_pos (by simpa using solid)]
          exact (List.dropWhile_suffix _).length_le
        have restLength := (List.dropWhile_suffix (fun char => decide (char = '/'))
          (l := (char :: tail).dropWhile (fun char => char ≠ '/'))).length_le
        rw [restEq] at restLength
        simp only [List.length_cons] at bodyLength
        omega
      · rw [← restEq, dropWhile_eq_nil_iff, elements_dropWhile]

/-- An element that fits into a name buffer is not cut off. -/
theorem getNextName_short {path name rest : List Char}
    (next : getNextName path = some (name, rest))
    (short : forall element, element ∈ elements path -> element.length < dirsiz) :
    FirstElement path name rest := by
  rcases getNextName_eq_some next with ⟨element, first, nameEq⟩
  have fits : element.length < dirsiz := by
    apply short
    rw [first.elements]
    exact List.mem_cons_self
  rw [nameEq, List.take_of_length_le (Nat.le_of_lt fits)]
  exact first

/-! ## Cutting off the last element -/

/-- The end of a path: a parent that does not end with a slash, slashes, an element, and
slashes. -/
structure LastElement (path parent slashes element tail : List Char) : Prop where
  split : path = parent ++ (slashes ++ (element ++ tail))
  parentEnd : forall rest, parent.reverse ≠ '/' :: rest
  separated : slashes ≠ []
  slashes : forall char, char ∈ slashes -> char = '/'
  nonempty : element ≠ []
  solid : forall char, char ∈ element -> char ≠ '/'
  tail : forall char, char ∈ tail -> char = '/'

/-- A path that starts with a slash and has an element has a last one. -/
theorem exists_lastElement {rest : List Char} (some : elements rest ≠ []) :
    Exists fun parent => Exists fun slashes => Exists fun element => Exists fun tail =>
      LastElement ('/' :: rest) parent slashes element tail ∧
        (parent = [] ∨ Exists fun inner => parent = '/' :: inner) := by
  -- read backwards: slashes, the element, slashes, the parent
  have first := List.takeWhile_append_dropWhile (p := fun char => decide (char = '/'))
    (l := ('/' :: rest).reverse)
  generalize tailEq : ('/' :: rest).reverse.takeWhile (fun char => char = '/') = tail at first
  generalize bodyEq : ('/' :: rest).reverse.dropWhile (fun char => char = '/') = body at first
  have tailSlashes : forall char, char ∈ tail -> char = '/' := by
    rw [← tailEq]
    exact takeWhile_slashes _
  have second := List.takeWhile_append_dropWhile (p := fun char => decide (char ≠ '/')) (l := body)
  generalize elementEq : body.takeWhile (fun char => char ≠ '/') = element at second
  generalize frontEq : body.dropWhile (fun char => char ≠ '/') = front at second
  have third := List.takeWhile_append_dropWhile (p := fun char => decide (char = '/')) (l := front)
  have elementSolid : forall char, char ∈ element -> char ≠ '/' := by
    rw [← elementEq]
    exact takeWhile_solid _
  have nonempty : element ≠ [] := by
    intro empty
    cases body with
    | nil =>
        rw [List.append_nil] at first
        have every : forall char, char ∈ '/' :: rest -> char = '/' := by
          intro char member
          exact tailSlashes char (by rw [first]; exact List.mem_reverse.mpr member)
        have none := elements_slashes every []
        rw [List.append_nil, elements_slash] at none
        exact some none
    | cons char others =>
        have solid : char ≠ '/' := by simpa using dropWhile_head bodyEq
        rw [List.takeWhile_cons_of_pos (by simpa using solid)] at elementEq
        rw [empty] at elementEq
        cases elementEq
  have whole : '/' :: rest = front.reverse ++ (element.reverse ++ tail.reverse) := by
    have reversed := congrArg List.reverse first
    rw [List.reverse_reverse, ← second] at reversed
    simpa using reversed.symm
  have frontSome : front ≠ [] := by
    intro empty
    rw [empty, List.reverse_nil, List.nil_append] at whole
    cases backwards : element.reverse with
    | nil => exact nonempty (List.reverse_eq_nil_iff.mp backwards)
    | cons char others =>
        rw [backwards, List.cons_append] at whole
        have member : char ∈ element := List.mem_reverse.mp (by rw [backwards]; exact List.mem_cons_self)
        exact elementSolid char member (List.cons.inj whole).1.symm
  have split : '/' :: rest = (front.dropWhile (fun char => char = '/')).reverse ++
      ((front.takeWhile (fun char => char = '/')).reverse ++ (element.reverse ++ tail.reverse)) := by
    have backwards := congrArg List.reverse third
    rw [List.reverse_append] at backwards
    rw [whole, ← backwards, List.append_assoc]
  refine ⟨(front.dropWhile (fun char => char = '/')).reverse,
    (front.takeWhile (fun char => char = '/')).reverse, element.reverse, tail.reverse, ?_, ?_⟩
  · constructor
    case split => exact split
    case parentEnd =>
      intro others equal
      rw [List.reverse_reverse] at equal
      have solid := dropWhile_head equal
      simp at solid
    case separated =>
      cases front with
      | nil => exact absurd rfl frontSome
      | cons char others =>
          have slash : char = '/' := by simpa using dropWhile_head frontEq
          simp [slash]
    case slashes =>
      intro char member
      exact takeWhile_slashes front char (List.mem_reverse.mp member)
    case nonempty => simpa using nonempty
    case solid =>
      intro char member
      exact elementSolid char (List.mem_reverse.mp member)
    case tail =>
      intro char member
      exact tailSlashes char (List.mem_reverse.mp member)
  · cases parent : (front.dropWhile (fun char => char = '/')).reverse with
    | nil => exact Or.inl rfl
    | cons char inner =>
        refine Or.inr ⟨inner, ?_⟩
        rw [parent, List.cons_append] at split
        rw [(List.cons.inj split).1]

/-- A path that ends with a slash followed by zeros, which `get_parent_path` takes for
the end of the string. -/
def ZeroEnd (path : List Char) : Prop :=
  path.getLast? = some '0' ∧ (path.reverse.dropWhile (fun char => char = '0')).head? = some '/'

instance (path : List Char) : Decidable (ZeroEnd path) :=
  inferInstanceAs (Decidable (_ ∧ _))

section LastElement

variable {path parent slashes element tail : List Char}

theorem LastElement.elements_eq (last : LastElement path parent slashes element tail) :
    elements path = elements parent ++ [element] := by
  have one := elements_solid last.nonempty last.solid
  have ending : elements (element ++ tail) = [element] := by
    cases behind : tail with
    | nil => rw [List.append_nil, one]
    | cons char rest =>
        have slash := last.tail char (by rw [behind]; exact List.mem_cons_self)
        have rest' := elements_slashes
          (fun other member => last.tail other (by rw [behind]; exact List.mem_cons_of_mem _ member)) []
        rw [List.append_nil] at rest'
        rw [slash, elements_append_slash, one, rest']
        rfl
  rw [last.split]
  cases between : slashes with
  | nil => exact absurd between last.separated
  | cons char others =>
      have slash := last.slashes char (by rw [between]; exact List.mem_cons_self)
      have rest := elements_slashes
        (fun other member => last.slashes other (by rw [between]; exact List.mem_cons_of_mem _ member))
        (element ++ tail)
      rw [slash, List.cons_append, elements_append_slash, rest, ending]

theorem dropWhile_all {test : Char -> Bool} {front : List Char}
    (every : forall char, char ∈ front -> test char = true) (back : List Char) :
    (front ++ back).dropWhile test = back.dropWhile test :=
  List.dropWhile_append_of_pos every

theorem dropWhile_stop {test : Char -> Bool} {front : List Char} (some : front ≠ [])
    (none : forall char, char ∈ front -> test char = false) (back : List Char) :
    (front ++ back).dropWhile test = front ++ back := by
  cases front with
  | nil => exact absurd rfl some
  | cons char rest =>
      rw [List.cons_append, List.dropWhile_cons_of_neg]
      simp [none char List.mem_cons_self]

/-- The backward scan stops on the slashes before the last element. -/
theorem LastElement.parentScan_eq (last : LastElement path parent slashes element tail)
    (plain : ¬ ZeroEnd path) : parentScan path = slashes.reverse ++ parent.reverse := by
  have reversed : path.reverse =
      tail.reverse ++ (element.reverse ++ (slashes.reverse ++ parent.reverse)) := by
    rw [last.split]
    simp
  have slashesSome : slashes.reverse ≠ [] := by simpa using last.separated
  have stops : forall front : List Char, (forall char, char ∈ front -> char ≠ '/') ->
      (front ++ (slashes.reverse ++ parent.reverse)).dropWhile (fun char => char ≠ '/') =
        slashes.reverse ++ parent.reverse := by
    intro front solid
    rw [dropWhile_all (fun char member => by simpa using solid char member)]
    exact dropWhile_stop slashesSome
      (fun char member => by simpa using last.slashes char (List.mem_reverse.mp member)) _
  unfold parentScan
  rw [reversed]
  cases behind : tail with
  | cons char rest =>
      -- trailing slashes hide the zeros
      have tailSome : (char :: rest).reverse ≠ [] := by simp
      have tailSlashes : forall other, other ∈ (char :: rest).reverse -> other = '/' := by
        intro other member
        exact last.tail other (by rw [behind]; exact List.mem_reverse.mp member)
      rw [dropWhile_stop tailSome (fun other member => by simp [tailSlashes other member]),
        dropWhile_all (fun other member => by simp [tailSlashes other member]),
        dropWhile_stop (by simpa using last.nonempty)
          (fun other member => by simpa using last.solid other (List.mem_reverse.mp member))]
      exact stops _ (fun other member => last.solid other (List.mem_reverse.mp member))
  | nil =>
      rw [List.reverse_nil, List.nil_append, List.dropWhile_append]
      have solid : forall other, other ∈ element.reverse.dropWhile (fun char => char = '0') ->
          other ≠ '/' := by
        intro other member
        exact last.solid other (List.mem_reverse.mp ((List.dropWhile_suffix _).subset member))
      by_cases zeros : element.reverse.dropWhile (fun char => char = '0') = []
      · -- an element of zeros only is excluded
        exfalso
        apply plain
        have every := List.dropWhile_eq_nil_iff.mp zeros
        rw [behind, List.reverse_nil, List.nil_append] at reversed
        constructor
        · rw [← List.head?_reverse, reversed]
          cases backwards : element.reverse with
          | nil => exact absurd (List.reverse_eq_nil_iff.mp backwards) last.nonempty
          | cons char rest =>
              have zero := every char (by rw [backwards]; exact List.mem_cons_self)
              simpa using zero
        · rw [reversed, dropWhile_all every]
          cases backwards : slashes.reverse with
          | nil => exact absurd backwards slashesSome
          | cons char rest =>
              have slash : char = '/' :=
                last.slashes char (List.mem_reverse.mp (by rw [backwards]; exact List.mem_cons_self))
              simp [slash]
      · rw [if_neg (by simpa using zeros), dropWhile_stop zeros
          (fun other member => by simpa using solid other member)]
        exact stops _ solid

/-- `get_parent_path` splits a path before its last element, unless the path ends in
zeros. -/
theorem LastElement.getParentPath_eq (last : LastElement path parent slashes element tail)
    (plain : ¬ ZeroEnd path) : getParentPath path = some (parent, element.take dirsiz) := by
  have scan := last.parentScan_eq plain
  have scanSome : parentScan path ≠ [] := by
    rw [scan]
    intro empty
    exact last.separated (by simpa using (List.append_eq_nil_iff.mp empty).1)
  have kept : (parentScan path).dropWhile (fun char => char = '/') = parent.reverse := by
    rw [scan, dropWhile_all
      (fun char member => by simpa using last.slashes char (List.mem_reverse.mp member))]
    cases backwards : parent.reverse with
    | nil => rfl
    | cons char rest =>
        have solid : char ≠ '/' := by
          intro slash
          rw [slash] at backwards
          exact last.parentEnd rest backwards
        rw [List.dropWhile_cons_of_neg (by simpa using solid)]
  have next : getNextName (slashes ++ (element ++ tail)) = some (element.take dirsiz, []) := by
    have skipped : (slashes ++ (element ++ tail)).dropWhile (fun char => char = '/') =
        element ++ tail := by
      rw [dropWhile_all (fun char member => by simpa using last.slashes char member)]
      exact dropWhile_stop last.nonempty
        (fun char member => by simpa using last.solid char member) tail
    have taken : (element ++ tail).takeWhile (fun char => char ≠ '/') = element := by
      rw [List.takeWhile_append_of_pos (fun char member => by simpa using last.solid char member)]
      cases behind : tail with
      | nil => simp
      | cons char rest =>
          have slash := last.tail char (by rw [behind]; exact List.mem_cons_self)
          simp [slash]
    have left : ((element ++ tail).dropWhile (fun char => char ≠ '/')).dropWhile
        (fun char => char = '/') = [] := by
      rw [dropWhile_all (fun char member => by simpa using last.solid char member)]
      apply List.dropWhile_eq_nil_iff.mpr
      intro char member
      have inTail := (List.dropWhile_suffix _).subset member
      simpa using last.tail char inTail
    unfold getNextName
    rw [skipped]
    cases start : element ++ tail with
    | nil => exact absurd (List.append_eq_nil_iff.mp start).1 last.nonempty
    | cons char rest =>
        rw [start] at taken left
        simp only [taken, left]
  unfold getParentPath
  simp only [kept, List.reverse_reverse]
  rw [if_neg scanSome]
  have dropped : path.drop parent.length = slashes ++ (element ++ tail) := by
    rw [last.split, List.drop_left]
  rw [dropped, next]
  rfl

end LastElement

end Userfs
