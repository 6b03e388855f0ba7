import Mathlib

/-!
# Programs that call their environment

A program makes calls, one after the other, and goes on with the answers; it returns or
crashes. A run takes the answers from an environment that is asked by the number of the
call, and records the calls with their answers.
-/

namespace Calls

/-- Programs with calls `c : C`, whose answers are of type `R c`. -/
inductive Prog (C : Type) (R : C → Type) (α : Type)
  | ret (a : α)
  | crash
  | call (c : C) (next : R c → Prog C R α)

variable {C : Type} {R : C → Type} {α β : Type}

namespace Prog

def bind : Prog C R α → (α → Prog C R β) → Prog C R β
  | .ret a, f => f a
  | .crash, _ => .crash
  | .call c next, f => .call c fun r => (next r).bind f

@[simp] theorem ret_bind (a : α) (f : α → Prog C R β) : (ret a : Prog C R α).bind f = f a := rfl

@[simp] theorem call_bind (c : C) (next : R c → Prog C R α) (f : α → Prog C R β) :
    (call c next).bind f = call c fun r => (next r).bind f := rfl

theorem bind_assoc {γ : Type} (prog : Prog C R α) (f : α → Prog C R β) (g : β → Prog C R γ) :
    (prog.bind f).bind g = prog.bind fun a => (f a).bind g := by
  induction prog with
  | ret a => rfl
  | crash => rfl
  | call c next ih =>
    apply congrArg (call c)
    funext r
    exact ih r

/-- The result, `none` after a crash, and the record of the calls. -/
def run (env : ℕ → (c : C) → R c) : ℕ → Prog C R α → Option α × List (Σ c, R c)
  | _, .ret a => (some a, [])
  | _, .crash => (none, [])
  | t, .call c next =>
    let r := run env (t + 1) (next (env t c))
    (r.1, ⟨c, env t c⟩ :: r.2)

/-- Every call that a program can make satisfies `p`. -/
def Only (p : C → Prop) : Prog C R α → Prop
  | .ret _ => True
  | .crash => True
  | .call c next => p c ∧ ∀ r, (next r).Only p

variable {p : C → Prop} {prog : Prog C R α}

theorem Only.bind (h : prog.Only p) {f : α → Prog C R β} (hf : ∀ a, (f a).Only p) :
    (prog.bind f).Only p := by
  induction prog with
  | ret a => exact hf a
  | crash => trivial
  | call c next ih => exact ⟨h.1, fun r => ih r (h.2 r)⟩

theorem Only.run (h : prog.Only p) (env : ℕ → (c : C) → R c) (t : ℕ) :
    ∀ e ∈ (prog.run env t).2, p e.1 := by
  induction prog generalizing t with
  | ret a => exact fun e he => absurd he List.not_mem_nil
  | crash => exact fun e he => absurd he List.not_mem_nil
  | call c next ih =>
    intro e he
    rcases List.mem_cons.mp he with rfl | he
    · exact h.1
    · exact ih _ (h.2 _) (t + 1) e he

end Prog

end Calls
