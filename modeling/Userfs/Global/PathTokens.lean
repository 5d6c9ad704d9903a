import Userfs.Global.Defs
import Userfs.Global.Path
import Userfs.Library.Memory

namespace Userfs

/-!
# Path strings in memory

`Global.Path` takes a string for the list of its characters.  Here `get_next_name` is
the C function: a pointer into a path is the list of the bytes from it to the end of the
string's memory, every loop tests the byte it stands on, and reading where no byte is
left faults.  The name goes to a buffer that keeps what it held behind the bytes written.

On the memory of a string, its characters and the terminator, the C function computes
what `getNextName` says and does not fault.  `pathNames` is the loop of `namex` around it.
-/

/-- The byte that ends a string. -/
def nul : Char := Char.ofNat 0

/-- `while (test(*path)) path++`. -/
def scanWhile (test : Char -> Bool) : List Char -> Except Fault (List Char)
  | [] => .error .segfault
  | char :: rest => if test char then scanWhile test rest else .ok (char :: rest)

/-- `memmove(name, s, len); name[len] = 0`, and without the terminator for an element that
does not fit. -/
def storeName (name : Nat -> Char) (s : List Char) (len : Nat) : Nat -> Char :=
  let source := fun index => s.getD index nul
  if dirsiz ≤ len then Memory.copy name 0 source dirsiz
  else Memory.copy (Memory.copy name 0 source len) len (fun _ => nul) 1

/-- `get_next_name`: the name buffer and the rest of the path. -/
def getNextNameAt (path : List Char) (name : Nat -> Char) :
    Except Fault (Option ((Nat -> Char) × List Char)) := do
  let s ← scanWhile (fun char => char = '/') path
  if s.head? = some nul then return none
  let path ← scanWhile (fun char => char ≠ '/' ∧ char ≠ nul) s
  let name := storeName name s (s.length - path.length)
  let rest ← scanWhile (fun char => char = '/') path
  return some (name, rest)

/-- `while ((path = get_next_name(path, name)) != 0)`: the name buffer and the path after
every call that returns one. -/
def pathNames : Nat -> List Char -> (Nat -> Char) -> Except Fault (List ((Nat -> Char) × List Char))
  | 0, _, _ => .error .outOfFuel
  | fuel + 1, path, name => do
      match ← getNextNameAt path name with
      | none => return []
      | some (name, rest) => return (name, rest) :: (← pathNames fuel rest name)

/-! ## A string and its memory -/

/-- The bytes of a string. -/
def stringBytes (text : List Char) : List Char :=
  text ++ [nul]

/-- A buffer that holds a string. -/
structure HoldsString (buffer : Nat -> Char) (text : List Char) : Prop where
  characters : Memory.slice buffer 0 text.length = text
  terminated : buffer text.length = nul

/-- A scan that stops on the terminator stays inside the string. -/
theorem scanWhile_stringBytes (test : Char -> Bool) (stops : test nul = false) (text : List Char) :
    scanWhile test (stringBytes text) = .ok (stringBytes (text.dropWhile test)) := by
  induction text with
  | nil =>
      change (if test nul then _ else _) = _
      rw [if_neg (by simp [stops])]
      rfl
  | cons char rest ih =>
      change (if test char then scanWhile test (stringBytes rest) else _) = _
      cases tested : test char with
      | true => rw [if_pos rfl, ih, List.dropWhile_cons_of_pos tested]
      | false =>
          rw [if_neg Bool.false_ne_true, List.dropWhile_cons_of_neg (by simp [tested])]
          rfl

/-- In a string the second loop stops at the next slash. -/
theorem dropWhile_plain {text : List Char} (plain : nul ∉ text) :
    text.dropWhile (fun char => char ≠ '/' ∧ char ≠ nul) = text.dropWhile (fun char => char ≠ '/') := by
  induction text with
  | nil => rfl
  | cons char rest ih =>
      have here : char ≠ nul := fun equal => plain (by rw [equal]; exact List.mem_cons_self)
      have there := ih (fun member => plain (List.mem_cons_of_mem _ member))
      simp only [List.dropWhile_cons, here, ne_eq, not_false_eq_true, and_true, there]

/-- A name that fits is stored with its terminator. -/
theorem storeName_holds (name : Nat -> Char) (element behind : List Char)
    (short : element.length < dirsiz) :
    HoldsString (storeName name (element ++ behind) element.length) element := by
  rw [storeName, if_neg (Nat.not_le.mpr short)]
  constructor
  · apply List.ext_getElem (Memory.length_slice _ _ _)
    intro index bound inside
    rw [Memory.getElem_slice, Nat.zero_add, Memory.copy_outside _ _ (Or.inl inside),
      Memory.copy_inside _ _ (Nat.zero_le _) (by omega), Nat.sub_zero]
    rw [List.getD_eq_getElem?_getD, List.getElem?_append_left inside, List.getElem?_eq_getElem inside]
    rfl
  · exact Memory.copy_inside _ _ (Nat.le_refl _) (Nat.lt_succ_self _)

theorem stringBytes_head? {text : List Char} (plain : nul ∉ text) :
    (stringBytes text).head? = some nul <-> text = [] := by
  cases text with
  | nil => exact ⟨fun _ => rfl, fun _ => rfl⟩
  | cons char rest =>
      constructor
      · intro head
        exact absurd (by rw [← Option.some.inj head]; exact List.mem_cons_self) plain
      · intro impossible
        cases impossible

/-! ## One call -/

/-- What one call leaves: nothing if the path has no element, and otherwise the first
element in the buffer and the string behind it. -/
def NextName (text : List Char) (result : Option ((Nat -> Char) × List Char)) : Prop :=
  match getNextName text with
  | none => result = none
  | some (element, rest) =>
      Exists fun buffer => result = some (buffer, stringBytes rest) ∧
        (element.length < dirsiz -> HoldsString buffer element)

/-- `get_next_name` in memory is `getNextName` on strings. -/
theorem getNextNameAt_stringBytes {text : List Char} (plain : nul ∉ text) (name : Nat -> Char) :
    Exists fun result => getNextNameAt (stringBytes text) name = .ok result ∧
      NextName text result := by
  have first := scanWhile_stringBytes (fun char => decide (char = '/')) (by decide) text
  unfold NextName getNextName
  cases body : text.dropWhile (fun char => char = '/') with
  | nil =>
      refine ⟨none, ?_, rfl⟩
      rw [body] at first
      simp only [getNextNameAt, first]
      rfl
  | cons char tail =>
      have bodyPlain : nul ∉ char :: tail := by
        rw [← body]
        exact fun member => plain ((List.dropWhile_suffix _).subset member)
      have solid : ¬ (stringBytes (char :: tail)).head? = some nul := by
        rw [stringBytes_head? bodyPlain]
        exact List.cons_ne_nil _ _
      have second := scanWhile_stringBytes
        (fun char => decide (char ≠ '/' ∧ char ≠ nul)) (by decide) (char :: tail)
      rw [dropWhile_plain bodyPlain] at second
      have third := scanWhile_stringBytes (fun char => decide (char = '/')) (by decide)
        ((char :: tail).dropWhile (fun char => char ≠ '/'))
      rw [body] at first
      have split := List.takeWhile_append_dropWhile (p := fun char => decide (char ≠ '/'))
        (l := char :: tail)
      dsimp only
      generalize (char :: tail).takeWhile (fun char => char ≠ '/') = element at split ⊢
      generalize (char :: tail).dropWhile (fun char => char ≠ '/') = rest at split second third ⊢
      have length : (stringBytes (char :: tail)).length - (stringBytes rest).length =
          element.length := by
        rw [← split]
        simp only [stringBytes, List.length_append]
        omega
      have bytes : stringBytes (char :: tail) = element ++ stringBytes rest := by
        rw [← split]
        exact List.append_assoc _ _ _
      refine ⟨some (storeName name (stringBytes (char :: tail)) element.length,
        stringBytes (rest.dropWhile (fun char => char = '/'))), ?_, _, rfl, ?_⟩
      · rw [← length]
        simp only [getNextNameAt, first, bind, Except.bind, if_neg solid, second, third]
        rfl
      · intro short
        have fits : element.length < dirsiz := by
          rw [List.length_take] at short
          omega
        rw [List.take_of_length_le (Nat.le_of_lt fits), bytes]
        exact storeName_holds name element _ fits

/-! ## The loop of `namex` -/

/-- One call of the loop: the element its buffer holds and the path it returns, which starts
with no slash and is the empty string exactly behind the last element. -/
structure Named (step : (Nat -> Char) × List Char) (element : List Char) (last : Prop) : Prop where
  held : HoldsString step.1 element
  noSlash : step.2.head? ≠ some '/'
  ended : step.2.head? = some nul <-> last

/-- The rest is a suffix of the path whose slashes in front have been skipped. -/
theorem getNextName_rest {text element rest : List Char}
    (next : getNextName text = some (element, rest)) :
    Exists fun behind => behind <:+ text ∧ behind.dropWhile (fun char => char = '/') = rest := by
  rw [getNextName] at next
  cases body : text.dropWhile (fun char => char = '/') with
  | nil =>
      rw [body] at next
      cases next
  | cons char tail =>
      rw [body] at next
      refine ⟨_, ?_, (Prod.mk.inj (Option.some.inj next)).2⟩
      rw [← body]
      exact (List.dropWhile_suffix _).trans (List.dropWhile_suffix _)

theorem getNextName_noSlash {text element rest : List Char}
    (next : getNextName text = some (element, rest)) : (stringBytes rest).head? ≠ some '/' := by
  rcases getNextName_rest next with ⟨behind, _, skipped⟩
  cases rest with
  | nil => decide
  | cons first others =>
      have solid : first ≠ '/' := by simpa using dropWhile_head skipped
      simpa [stringBytes] using solid

theorem getNextName_subset {text element rest : List Char}
    (next : getNextName text = some (element, rest)) : rest ⊆ text := by
  rcases getNextName_rest next with ⟨behind, suffix, skipped⟩
  rw [← skipped]
  exact ((List.dropWhile_suffix _).trans suffix).subset

/-- The loop yields the elements of a path in order and ends: it needs one call for every
element and one that returns zero, and no call reads behind the terminator. -/
theorem pathNames_elements (text : List Char) (plain : nul ∉ text)
    (short : forall element, element ∈ elements text -> element.length < dirsiz)
    (name : Nat -> Char) (fuel : Nat) (enough : text.length < fuel) :
    Exists fun steps => pathNames fuel (stringBytes text) name = .ok steps ∧
      steps.length = (elements text).length ∧
      forall index step element, steps[index]? = some step ->
        (elements text)[index]? = some element ->
        Named step element (index + 1 = (elements text).length) := by
  induction fuel generalizing text name with
  | zero => exact absurd enough (Nat.not_lt_zero _)
  | succ fuel ih =>
      rcases getNextNameAt_stringBytes plain name with ⟨result, run, next⟩
      unfold NextName at next
      rw [pathNames, run]
      cases cut : getNextName text with
      | none =>
          rw [cut] at next
          subst next
          refine ⟨[], rfl, ?_, ?_⟩
          · rw [getNextName_eq_none.mp cut]
            rfl
          · intro index step element impossible
            cases impossible
      | some pair =>
          rcases pair with ⟨element, rest⟩
          rw [cut] at next
          rcases next with ⟨buffer, resultEq, held⟩
          subst resultEq
          have first := getNextName_short cut short
          have restPlain : nul ∉ rest := fun member => plain (getNextName_subset cut member)
          have restShort : forall other, other ∈ elements rest -> other.length < dirsiz := by
            intro other member
            exact short other (by rw [first.elements]; exact List.mem_cons_of_mem _ member)
          rcases ih rest restPlain restShort buffer (by have := first.shorter; omega) with
            ⟨steps, rerun, count, named⟩
          refine ⟨(buffer, stringBytes rest) :: steps, ?_, ?_, ?_⟩
          · simp only [bind, Except.bind, rerun]
            rfl
          · rw [first.elements, List.length_cons, List.length_cons, count]
          · intro index step other atStep atElement
            rw [first.elements] at atElement ⊢
            cases index with
            | zero =>
                cases atStep
                cases atElement
                refine ⟨held ?_, getNextName_noSlash cut, ?_⟩
                · exact short element (by rw [first.elements]; exact List.mem_cons_self)
                · rw [stringBytes_head? restPlain, first.last, List.length_cons, ← List.length_eq_zero_iff]
                  omega
            | succ index =>
                have later := named index step other atStep atElement
                refine ⟨later.held, later.noSlash, later.ended.trans ?_⟩
                rw [List.length_cons]
                omega

/-- A path with repeated slashes in front and behind. -/
theorem pathNames_elements_slashes :
    Exists fun steps => pathNames 9 (stringBytes ['/', '/', 'a', '/', 'b', 'b', '/', '/'])
        (fun _ => 'x') = .ok steps ∧ steps.length = 2 ∧
      forall index step element, steps[index]? = some step ->
        [['a'], ['b', 'b']][index]? = some element -> Named step element (index + 1 = 2) :=
  pathNames_elements ['/', '/', 'a', '/', 'b', 'b', '/', '/'] (by decide) (by decide)
    (fun _ => 'x') 9 (by decide)

end Userfs
