import Mathlib

/-!
# Processes on FIFO channels

Sequential programs of parties that send and receive single items over
point-to-point queues. A party that waits names the queue it waits on, so what
it does next never depends on the schedule: all schedules lead to the same final
state, and it is enough to exhibit one.
-/

namespace Process

variable {P T α β : Type}

/-- The program of one party, with items of type `T`. -/
inductive Proc (P T α : Type)
  | ret (a : α)
  | send (dst : P) (t : T) (k : Proc P T α)
  | recv (src : P) (k : T → Proc P T α)

namespace Proc

def bind : Proc P T α → (α → Proc P T β) → Proc P T β
  | .ret a, f => f a
  | .send dst t k, f => .send dst t (k.bind f)
  | .recv src k, f => .recv src fun t => (k t).bind f

instance : Monad (Proc P T) where
  pure := .ret
  bind := bind

@[simp] theorem ret_bind (a : α) (f : α → Proc P T β) : (Proc.ret a).bind f = f a := rfl

theorem bind_assoc {γ : Type} (p : Proc P T α) (f : α → Proc P T β) (g : β → Proc P T γ) :
    (p.bind f).bind g = p.bind fun a => (f a).bind g := by
  induction p with
  | ret a => rfl
  | send dst t k ih => simp only [bind, ih]
  | recv src k ih => simp only [bind, ih]

def sendAll (dst : P) : List T → Proc P T Unit
  | [] => .ret ()
  | t :: ts => .send dst t (sendAll dst ts)

/-- Receive `n` items. -/
def recvMany (src : P) : ℕ → Proc P T (List T)
  | 0 => .ret []
  | n + 1 => .recv src fun t => (recvMany src n).bind fun ts => .ret (t :: ts)

end Proc

/-- The programs that are left and the items in flight, from first to second party. -/
@[ext] structure Net (P T α : Type) where
  proc : P → Proc P T α
  chan : P → P → List T

namespace Net

def Final (s : Net P T α) : Prop := ∀ p, ∃ a, s.proc p = .ret a

variable [DecidableEq P]

/-- The state after the next action of party `p`, if it can take one. -/
def after (s : Net P T α) (p : P) : Option (Net P T α) :=
  match s.proc p with
  | .ret _ => none
  | .send dst t k =>
    some ⟨Function.update s.proc p k,
      fun a b => if a = p ∧ b = dst then s.chan a b ++ [t] else s.chan a b⟩
  | .recv src k =>
    match s.chan src p with
    | [] => none
    | t :: rest =>
      some ⟨Function.update s.proc p (k t),
        fun a b => if a = src ∧ b = p then rest else s.chan a b⟩

def Step (s s' : Net P T α) : Prop := ∃ p, s.after p = some s'

def Steps : Net P T α → Net P T α → Prop := Relation.ReflTransGen Step

theorem after_send {s : Net P T α} {p dst : P} {t : T} {k : Proc P T α}
    (h : s.proc p = .send dst t k) :
    s.after p = some ⟨Function.update s.proc p k,
      fun a b => if a = p ∧ b = dst then s.chan a b ++ [t] else s.chan a b⟩ := by
  rw [after, h]

theorem after_recv {s : Net P T α} {p src : P} {t : T} {rest : List T} {k : T → Proc P T α}
    (h : s.proc p = .recv src k) (hchan : s.chan src p = t :: rest) :
    s.after p = some ⟨Function.update s.proc p (k t),
      fun a b => if a = src ∧ b = p then rest else s.chan a b⟩ := by
  rw [after, h]
  dsimp only
  rw [hchan]

theorem after_cases {s s' : Net P T α} {p : P} (h : s.after p = some s') :
    (∃ dst t k, s.proc p = .send dst t k ∧ s' = ⟨Function.update s.proc p k,
      fun a b => if a = p ∧ b = dst then s.chan a b ++ [t] else s.chan a b⟩) ∨
    (∃ src k t rest, s.proc p = .recv src k ∧ s.chan src p = t :: rest ∧
      s' = ⟨Function.update s.proc p (k t),
        fun a b => if a = src ∧ b = p then rest else s.chan a b⟩) := by
  rw [after] at h
  cases hp : s.proc p with
  | ret a =>
    rw [hp] at h
    cases h
  | send dst t k =>
    rw [hp] at h
    exact .inl ⟨dst, t, k, rfl, (Option.some.inj h).symm⟩
  | recv src k =>
    rw [hp] at h
    dsimp only at h
    cases hc : s.chan src p with
    | nil =>
      rw [hc] at h
      cases h
    | cons t rest =>
      rw [hc] at h
      exact .inr ⟨src, k, t, rest, rfl, hc, (Option.some.inj h).symm⟩

theorem Final.no_step {s s' : Net P T α} (h : s.Final) : ¬s.Step s' := by
  rintro ⟨p, hp⟩
  obtain ⟨a, ha⟩ := h p
  rw [after, ha] at hp
  cases hp

theorem send_send_comm {s : Net P T α} {p q dst dst' : P} {t t' : T} {k k' : Proc P T α}
    (hpq : p ≠ q) (hp : s.proc p = .send dst t k) (hq : s.proc q = .send dst' t' k') :
    ∃ s', (Net.mk (Function.update s.proc p k)
        fun a b => if a = p ∧ b = dst then s.chan a b ++ [t] else s.chan a b).after q = some s' ∧
      (Net.mk (Function.update s.proc q k')
        fun a b => if a = q ∧ b = dst' then s.chan a b ++ [t'] else s.chan a b).after p =
          some s' := by
  refine ⟨_, after_send ((Function.update_of_ne hpq.symm _ _).trans hq), ?_⟩
  rw [after_send ((Function.update_of_ne hpq _ _).trans hp), Option.some.injEq, Net.mk.injEq]
  refine ⟨Function.update_comm hpq.symm _ _ _, ?_⟩
  funext a b
  dsimp only
  by_cases ha : a = p
  · have hne : a ≠ q := fun h => hpq (ha.symm.trans h)
    simp only [hne, false_and, ↓reduceIte]
  · simp only [ha, false_and, ↓reduceIte]

theorem send_recv_comm {s : Net P T α} {p q dst src : P} {t t' : T} {rest : List T}
    {k : Proc P T α} {k' : T → Proc P T α} (hpq : p ≠ q) (hp : s.proc p = .send dst t k)
    (hq : s.proc q = .recv src k') (hc : s.chan src q = t' :: rest) :
    ∃ s', (Net.mk (Function.update s.proc p k)
        fun a b => if a = p ∧ b = dst then s.chan a b ++ [t] else s.chan a b).after q = some s' ∧
      (Net.mk (Function.update s.proc q (k' t'))
        fun a b => if a = src ∧ b = q then rest else s.chan a b).after p = some s' := by
  refine ⟨⟨Function.update (Function.update s.proc p k) q (k' t'), fun a b =>
    if a = src ∧ b = q then (if a = p ∧ b = dst then rest ++ [t] else rest)
    else if a = p ∧ b = dst then s.chan a b ++ [t] else s.chan a b⟩, ?_, ?_⟩
  · have hc' : (if src = p ∧ q = dst then s.chan src q ++ [t] else s.chan src q) =
        t' :: (if src = p ∧ q = dst then rest ++ [t] else rest) := by
      rw [hc]
      split <;> rfl
    rw [after_recv ((Function.update_of_ne hpq.symm _ _).trans hq) hc', Option.some.injEq,
      Net.mk.injEq]
    refine ⟨rfl, ?_⟩
    funext a b
    by_cases hab : a = src ∧ b = q
    · simp only [hab.1, hab.2]
    · simp only [if_neg hab]
  · rw [after_send ((Function.update_of_ne hpq _ _).trans hp), Option.some.injEq, Net.mk.injEq]
    refine ⟨Function.update_comm hpq.symm _ _ _, ?_⟩
    funext a b
    dsimp only
    split_ifs <;> rfl

theorem recv_recv_comm {s : Net P T α} {p q src src' : P} {t t' : T} {rest rest' : List T}
    {k k' : T → Proc P T α} (hpq : p ≠ q) (hp : s.proc p = .recv src k)
    (hc : s.chan src p = t :: rest) (hq : s.proc q = .recv src' k')
    (hc' : s.chan src' q = t' :: rest') :
    ∃ s', (Net.mk (Function.update s.proc p (k t))
        fun a b => if a = src ∧ b = p then rest else s.chan a b).after q = some s' ∧
      (Net.mk (Function.update s.proc q (k' t'))
        fun a b => if a = src' ∧ b = q then rest' else s.chan a b).after p = some s' := by
  have hq' : (if src' = src ∧ q = p then rest else s.chan src' q) = t' :: rest' := by
    rw [if_neg (fun h => hpq h.2.symm), hc']
  have hp' : (if src = src' ∧ p = q then rest' else s.chan src p) = t :: rest := by
    rw [if_neg (fun h => hpq h.2), hc]
  refine ⟨_, after_recv ((Function.update_of_ne hpq.symm _ _).trans hq) hq', ?_⟩
  rw [after_recv ((Function.update_of_ne hpq _ _).trans hp) hp', Option.some.injEq, Net.mk.injEq]
  refine ⟨Function.update_comm hpq.symm _ _ _, ?_⟩
  funext a b
  dsimp only
  by_cases hb : b = p
  · have hne : b ≠ q := fun h => hpq (hb.symm.trans h)
    simp only [hne, and_false, ↓reduceIte]
  · simp only [hb, and_false, ↓reduceIte]

theorem after_comm {s s₁ s₂ : Net P T α} {p q : P} (hpq : p ≠ q) (h₁ : s.after p = some s₁)
    (h₂ : s.after q = some s₂) : ∃ s', s₁.after q = some s' ∧ s₂.after p = some s' := by
  rcases after_cases h₁ with ⟨dst, t, k, hp, rfl⟩ | ⟨src, k, t, rest, hp, hc, rfl⟩
  · rcases after_cases h₂ with ⟨dst', t', k', hq, rfl⟩ | ⟨src', k', t', rest', hq, hc', rfl⟩
    · exact send_send_comm hpq hp hq
    · exact send_recv_comm hpq hp hq hc'
  · rcases after_cases h₂ with ⟨dst', t', k', hq, rfl⟩ | ⟨src', k', t', rest', hq, hc', rfl⟩
    · obtain ⟨s', h, h'⟩ := send_recv_comm hpq.symm hq hp hc
      exact ⟨s', h', h⟩
    · exact recv_recv_comm hpq hp hc hq hc'

theorem step_diamond (s s₁ s₂ : Net P T α) (h₁ : s.Step s₁) (h₂ : s.Step s₂) :
    ∃ s', Relation.ReflGen Step s₁ s' ∧ Relation.ReflTransGen Step s₂ s' := by
  obtain ⟨p, hp⟩ := h₁
  obtain ⟨q, hq⟩ := h₂
  by_cases hpq : p = q
  · subst hpq
    obtain rfl := Option.some.inj (hp.symm.trans hq)
    exact ⟨s₁, .refl, .refl⟩
  · obtain ⟨s', h, h'⟩ := after_comm hpq hp hq
    exact ⟨s', .single ⟨q, h⟩, .single ⟨p, h'⟩⟩

/-- From every state that a schedule reaches, the final state of one schedule is
still reached. -/
theorem Final.reached {s₀ s f : Net P T α} (hf : f.Final) (hrun : Steps s₀ f)
    (hs : Steps s₀ s) : Steps s f := by
  obtain ⟨f', hsf', hff'⟩ := Relation.church_rosser step_diamond hs hrun
  rcases hff'.cases_head with rfl | ⟨s', hstep, -⟩
  · exact hsf'
  · exact absurd hstep hf.no_step

/-- With one schedule to a final state, no schedule gets stuck before it, and it
is the only final state. -/
theorem Final.unique {s₀ s f : Net P T α} (hf : f.Final) (hrun : Steps s₀ f)
    (hs : Steps s₀ s) : (¬s.Final → ∃ s', s.Step s') ∧ (s.Final → s = f) := by
  rcases (hf.reached hrun hs).cases_head with rfl | ⟨s', hstep, -⟩
  · exact ⟨fun h => absurd hf h, fun _ => rfl⟩
  · exact ⟨fun _ => ⟨s', hstep⟩, fun h => absurd hstep h.no_step⟩

theorem steps_stages {f : ℕ → Net P T α} {n : ℕ} (h : ∀ j < n, Steps (f j) (f (j + 1))) :
    Steps (f 0) (f n) := by
  induction n with
  | zero => exact .refl
  | succ n ih => exact (ih fun j hj => h j (by omega)).trans (h n (by omega))

/-- A party that sends a list of items. The states are described by what they
are at each party and queue, so that a schedule can be put together from closed
descriptions. -/
theorem steps_sendAll {s s' : Net P T α} {p dst : P} {ts : List T} {k : Unit → Proc P T α}
    (hp : s.proc p = (Proc.sendAll dst ts).bind k) (hp' : s'.proc p = k ())
    (hproc : ∀ q, q ≠ p → s'.proc q = s.proc q)
    (hchan : s'.chan p dst = s.chan p dst ++ ts)
    (hother : ∀ a b, ¬(a = p ∧ b = dst) → s'.chan a b = s.chan a b) : Steps s s' := by
  induction ts generalizing s with
  | nil =>
    have heq : s = s' := by
      ext1
      · funext q
        by_cases hq : q = p
        · subst hq
          rw [hp, hp']
          rfl
        · exact (hproc q hq).symm
      · funext a b
        by_cases hab : a = p ∧ b = dst
        · rw [hab.1, hab.2, hchan, List.append_nil]
        · exact (hother a b hab).symm
    exact heq ▸ .refl
  | cons t ts ih =>
    refine .head ⟨p, after_send hp⟩ (ih (Function.update_self ..) ?_ ?_ ?_)
    · intro q hq
      exact (hproc q hq).trans (Function.update_of_ne hq _ _).symm
    · dsimp only
      rw [hchan, if_pos ⟨rfl, rfl⟩, List.append_assoc, List.singleton_append]
    · intro a b hab
      dsimp only
      rw [if_neg hab]
      exact hother a b hab

theorem steps_recvMany {s s' : Net P T α} {p src : P} {n : ℕ} {ts rest : List T}
    {k : List T → Proc P T α} (hp : s.proc p = (Proc.recvMany src n).bind k)
    (hlen : ts.length = n) (hchan : s.chan src p = ts ++ rest) (hp' : s'.proc p = k ts)
    (hproc : ∀ q, q ≠ p → s'.proc q = s.proc q) (hchan' : s'.chan src p = rest)
    (hother : ∀ a b, ¬(a = src ∧ b = p) → s'.chan a b = s.chan a b) : Steps s s' := by
  -- nothing is left to receive at zero; else one step takes the first message
  induction n generalizing s ts k with
  | zero =>
    obtain rfl := List.eq_nil_of_length_eq_zero hlen
    have heq : s = s' := by
      ext1
      · funext q
        by_cases hq : q = p
        · subst hq
          rw [hp, hp']
          rfl
        · exact (hproc q hq).symm
      · funext a b
        by_cases hab : a = src ∧ b = p
        · rw [hab.1, hab.2, hchan', hchan, List.nil_append]
        · exact (hother a b hab).symm
    exact heq ▸ .refl
  | succ n ih =>
    cases ts with
    | nil => cases hlen
    | cons t ts =>
      have hp₁ : s.proc p = .recv src fun t =>
          (Proc.recvMany src n).bind fun ts => k (t :: ts) := by
        rw [hp, Proc.recvMany, Proc.bind]
        simp only [Proc.bind_assoc, Proc.ret_bind]
      refine .head ⟨p, after_recv hp₁ hchan⟩
        (ih (Function.update_self ..) (Nat.succ.inj hlen) ?_ hp' ?_ ?_)
      · exact if_pos ⟨rfl, rfl⟩
      · intro q hq
        exact (hproc q hq).trans (Function.update_of_ne hq _ _).symm
      · intro a b hab
        dsimp only
        rw [if_neg hab]
        exact hother a b hab

end Net

end Process
