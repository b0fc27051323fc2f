import Mathlib.Data.List.Basic

/-!
# Formats

A `Format` prints a value and parses it back from the front of an input. Formats are
put together from smaller ones, and the law `parse_print` comes with them. What is
printed may only be followed by an input in `Follow`: a number ends where the digits
end, so no digit may follow it.
-/

/-- A printer, and a parser that undoes it. -/
structure Format (τ α : Type) where
  /-- Print. -/
  print : α → List τ
  /-- Parse from the front; what is left is returned. -/
  parse : List τ → Option (α × List τ)
  /-- What may come next. -/
  Follow : List τ → Prop
  /-- What is printed is parsed. -/
  parse_print : ∀ a rest, Follow rest → parse (print a ++ rest) = some (a, rest)

namespace Format

variable {τ α β : Type}

/-- Take a fixed beginning away. -/
def strip [DecidableEq τ] : List τ → List τ → Option (List τ)
  | [], input => some input
  | _ :: _, [] => none
  | t :: ts, i :: input => if t = i then strip ts input else none

theorem strip_append [DecidableEq τ] (ts rest : List τ) : strip ts (ts ++ rest) = some rest := by
  induction ts with
  | nil => rfl
  | cons t ts ih => simpa [strip] using ih

/-- A fixed text before a value. -/
def after [DecidableEq τ] (text : List τ) (f : Format τ α) : Format τ α where
  print a := text ++ f.print a
  parse input := (strip text input).bind f.parse
  Follow := f.Follow
  parse_print a rest h := by
    rw [List.append_assoc, strip_append, Option.bind_some, f.parse_print a rest h]

/-- A fixed text after a value. -/
def before [DecidableEq τ] (f : Format τ α) (text : List τ) (h : ∀ rest, f.Follow (text ++ rest)) : Format τ α where
  print a := f.print a ++ text
  parse input := (f.parse input).bind fun (a, input) => (strip text input).map fun rest => (a, rest)
  Follow _ := True
  parse_print a rest _ := by
    simp only [List.append_assoc, f.parse_print a _ (h rest), Option.bind_some, strip_append, Option.map_some]

/-- One value after another. -/
def pair (f : Format τ α) (g : Format τ β) (h : ∀ b rest, g.Follow rest → f.Follow (g.print b ++ rest)) :
    Format τ (α × β) where
  print p := f.print p.1 ++ g.print p.2
  parse input := (f.parse input).bind fun (a, input) => (g.parse input).map fun (b, rest) => ((a, b), rest)
  Follow := g.Follow
  parse_print p rest hrest := by
    simp only [List.append_assoc, f.parse_print _ _ (h p.2 rest hrest), Option.bind_some, g.parse_print _ _ hrest,
      Option.map_some]

/-- The same values in another shape. -/
def map (f : Format τ α) (forth : α → β) (back : β → α) (h : ∀ b, forth (back b) = b) : Format τ β where
  print b := f.print (back b)
  parse input := (f.parse input).map fun (a, rest) => (forth a, rest)
  Follow := f.Follow
  parse_print b rest hrest := by
    simp only [f.parse_print _ _ hrest, Option.map_some, h]

/-- A value or a text that stands for none. -/
def orElse [DecidableEq τ] (f : Format τ α) (text : List τ) (h : ∀ a rest, strip text (f.print a ++ rest) = none) :
    Format τ (Option α) where
  print a := (a.map f.print).getD text
  parse input :=
    match strip text input with
    | some rest => some (none, rest)
    | none => (f.parse input).map fun (a, rest) => (some a, rest)
  Follow := f.Follow
  parse_print a rest hrest := by
    cases a with
    | none => simp [strip_append]
    | some a => simp [h, f.parse_print _ _ hrest]

section

variable (f : Format τ α) (g : Format τ β) (text : List τ)

@[simp] theorem print_pair (h : ∀ b rest, g.Follow rest → f.Follow (g.print b ++ rest)) (p : α × β) :
    (f.pair g h).print p = f.print p.1 ++ g.print p.2 := rfl

@[simp] theorem print_map (forth : α → β) (back : β → α) (h : ∀ b, forth (back b) = b) (b : β) :
    (f.map forth back h).print b = f.print (back b) := rfl

variable [DecidableEq τ]

@[simp] theorem print_after (a : α) : (f.after text).print a = text ++ f.print a := rfl

@[simp] theorem print_before (h : ∀ rest, f.Follow (text ++ rest)) (a : α) :
    (f.before text h).print a = f.print a ++ text := rfl

@[simp] theorem print_orElse (h : ∀ a rest, strip text (f.print a ++ rest) = none) (a : Option α) :
    (f.orElse text h).print a = (a.map f.print).getD text := rfl

end

/-- What follows the first value of a list: a separator and a value, or the end. -/
def parseTail [DecidableEq τ] (f : Format τ α) (separator close : τ) : (fuel : ℕ) → List τ → Option (List α × List τ)
  | 0, _ => none
  | _ + 1, [] => none
  | fuel + 1, t :: input =>
    if t = close then some ([], input)
    else if t = separator then
      (f.parse input).bind fun (a, input) =>
        (parseTail f separator close fuel input).map fun (as, rest) => (a :: as, rest)
    else none

/-- The rest of a list after its first value. -/
def printTail (f : Format τ α) (separator close : τ) : List α → List τ
  | [] => [close]
  | a :: as => separator :: (f.print a ++ printTail f separator close as)

theorem parseTail_printTail [DecidableEq τ] (f : Format τ α) {separator close : τ} (hne : separator ≠ close)
    (h : ∀ rest, f.Follow (separator :: rest) ∧ f.Follow (close :: rest)) (as : List α) (rest : List τ) :
    ∀ fuel, as.length < fuel →
      parseTail f separator close fuel (printTail f separator close as ++ rest) = some (as, rest) := by
  induction as with
  | nil =>
    intro fuel hfuel
    cases fuel with
    | zero => cases hfuel
    | succ fuel => simp [parseTail, printTail]
  | cons a as ih =>
    intro fuel hfuel
    cases fuel with
    | zero => cases hfuel
    | succ fuel =>
      have hfollow : f.Follow (printTail f separator close as ++ rest) := by
        cases as with
        | nil => exact (h rest).2
        | cons b bs => exact (h _).1
      have hih := ih fuel (Nat.lt_of_succ_lt_succ hfuel)
      simp [parseTail, printTail, hne, f.parse_print _ _ hfollow, hih]

theorem length_lt_printTail (f : Format τ α) (separator close : τ) (as : List α) :
    as.length < (printTail f separator close as).length := by
  induction as with
  | nil => exact Nat.zero_lt_one
  | cons a as ih =>
    simp only [printTail, List.length_cons, List.length_append]
    omega

/-- A list up to its end. -/
def list [DecidableEq τ] (f : Format τ α) (separator close : τ) (hne : separator ≠ close)
    (h : ∀ rest, f.Follow (separator :: rest) ∧ f.Follow (close :: rest))
    (hfirst : ∀ a rest, strip [close] (f.print a ++ rest) = none) : Format τ (List α) where
  print
    | [] => [close]
    | a :: as => f.print a ++ printTail f separator close as
  parse input :=
    match strip [close] input with
    | some rest => some ([], rest)
    | none =>
      (f.parse input).bind fun (a, input) =>
        (parseTail f separator close (input.length + 1) input).map fun (as, rest) => (a :: as, rest)
  Follow _ := True
  parse_print as rest _ := by
    cases as with
    | nil => simp [strip]
    | cons a as =>
      have hfollow : f.Follow (printTail f separator close as ++ rest) := by
        cases as with
        | nil => exact (h rest).2
        | cons b bs => exact (h _).1
      have hlt := length_lt_printTail f separator close as
      have htail := parseTail_printTail f hne h as rest ((printTail f separator close as ++ rest).length + 1)
        (by rw [List.length_append]; omega)
      simp only [List.append_assoc, hfirst, f.parse_print _ _ hfollow, Option.bind_some, htail, Option.map_some]

end Format
