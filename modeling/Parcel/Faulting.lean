import Mathlib

/-!
# Computations that can fault

`Ends Q E x`: the value of `x` satisfies `Q`, or its fault satisfies `E`.
-/

namespace Faulting

variable {ε α β : Type} {Q Q' : α → Prop} {E E' : ε → Prop}

theorem ok_bind (a : α) (f : α → Except ε β) : (Except.ok a >>= f) = f a := rfl

def Ends (Q : α → Prop) (E : ε → Prop) : Except ε α → Prop
  | .ok a => Q a
  | .error f => E f

namespace Ends

variable {x : Except ε α}

protected theorem mono (h : Ends Q E x) (hQ : ∀ a, Q a → Q' a) (hE : ∀ f, E f → E' f) :
    Ends Q' E' x := by
  cases x with
  | error f => exact hE f h
  | ok a => exact hQ a h

protected theorem trivial (x : Except ε α) : Ends (fun _ => True) (fun _ => True) x := by
  cases x with
  | error f => exact True.intro
  | ok a => exact True.intro

protected theorem bind {f : α → Except ε β} {R : β → Prop} (h : Ends Q E x)
    (hf : ∀ a, Q a → Ends R E (f a)) : Ends R E (x >>= f) := by
  cases x with
  | error e => exact h
  | ok a => exact hf a h

theorem of_ok {a : α} (h : Ends Q E x) (hx : x = .ok a) : Q a := by
  rw [hx] at h
  exact h

theorem of_error {f : ε} (h : Ends Q E x) (hx : x = .error f) : E f := by
  rw [hx] at h
  exact h

end Ends

end Faulting
