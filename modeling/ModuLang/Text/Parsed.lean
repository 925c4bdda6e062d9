/-!
# Results of parsers

A step of a parser gives the value that it read and what it did not use, together with a proof that
this is less than some bound. The bound is the size of what the step was given, so that a loop of
such steps comes to an end.
-/

namespace ModuLang.Text

/-- A value that was read, and fewer than `bound` symbols behind it. -/
structure Parsed (σ α : Type) (bound : Nat) where
  value : α
  rest : List σ
  shorter : rest.length < bound

namespace Parsed

variable {σ α β : Type} {m n : Nat}

/-- A result within one bound is within any greater one. -/
def widen (p : Parsed σ α m) (h : m ≤ n) : Parsed σ α n :=
  ⟨p.value, p.rest, Nat.lt_of_lt_of_le p.shorter h⟩

/-- A result with its value changed. -/
def map (f : α → β) (p : Parsed σ α n) : Parsed σ β n :=
  ⟨f p.value, p.rest, p.shorter⟩

end Parsed

/-- Dropping from the front leaves no more than there was. -/
theorem length_dropWhile_le {α : Type} (p : α → Bool) (xs : List α) :
    (xs.dropWhile p).length ≤ xs.length :=
  (List.dropWhile_suffix p).length_le

end ModuLang.Text
