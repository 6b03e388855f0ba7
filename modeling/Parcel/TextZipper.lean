import Mathlib

/-!
# Text with a cursor

A text is edited at a cursor, which separates the characters before it from those after
it. Jumps move over separators, the characters with `sep`, and then over the word that
follows them.
-/

namespace TextZipper

/-- The characters before and after the cursor, both in the order of the text. -/
@[ext] structure Zipper (α : Type) where
  left : List α
  right : List α

inductive Edit (α : Type)
  | insert (a : α)
  | backspace
  | delete
  | moveLeft
  | moveRight
  | moveHome
  | moveEnd
  | jumpForward
  | jumpBackward
  | stay

namespace Zipper

variable {α : Type}

def empty : Zipper α := ⟨[], []⟩

def text (z : Zipper α) : List α := z.left ++ z.right

def backspace (z : Zipper α) : Zipper α := ⟨z.left.dropLast, z.right⟩

def delete (z : Zipper α) : Zipper α := ⟨z.left, z.right.tail⟩

def moveLeft (z : Zipper α) : Zipper α := ⟨z.left.dropLast, z.left.getLast?.toList ++ z.right⟩

def moveRight (z : Zipper α) : Zipper α := ⟨z.left ++ z.right.head?.toList, z.right.tail⟩

/-- Left over the characters with `p`. -/
def skipLeft (p : α → Bool) (z : Zipper α) : Zipper α :=
  ⟨z.left.rdropWhile p, z.left.rtakeWhile p ++ z.right⟩

/-- Right over the characters with `p`. -/
def skipRight (p : α → Bool) (z : Zipper α) : Zipper α :=
  ⟨z.left ++ z.right.takeWhile p, z.right.dropWhile p⟩

variable (sep : α → Bool)

def edit (z : Zipper α) : Edit α → Zipper α
  | .insert a => ⟨z.left ++ [a], z.right⟩
  | .backspace => z.backspace
  | .delete => z.delete
  | .moveLeft => z.moveLeft
  | .moveRight => z.moveRight
  | .moveHome => ⟨[], z.text⟩
  | .moveEnd => ⟨z.text, []⟩
  | .jumpForward => (z.skipRight sep).skipRight (!sep ·)
  | .jumpBackward => (z.skipLeft sep).skipLeft (!sep ·)
  | .stay => z

def run (z : Zipper α) (es : List (Edit α)) : Zipper α := es.foldl (edit sep) z

def Stuck (z : Zipper α) : Edit α → Prop
  | .insert _ => False
  | .backspace | .moveLeft | .moveHome | .jumpBackward => z.left = []
  | .delete | .moveRight | .moveEnd | .jumpForward => z.right = []
  | .stay => True

@[simp] theorem moveLeft_concat (l r : List α) (a : α) :
    (⟨l ++ [a], r⟩ : Zipper α).moveLeft = ⟨l, a :: r⟩ := by
  simp [moveLeft]

@[simp] theorem moveRight_cons (l r : List α) (a : α) :
    (⟨l, a :: r⟩ : Zipper α).moveRight = ⟨l ++ [a], r⟩ := rfl

@[simp] theorem backspace_concat (l r : List α) (a : α) :
    (⟨l ++ [a], r⟩ : Zipper α).backspace = ⟨l, r⟩ := by
  simp [backspace]

theorem skipLeft_nil (p : α → Bool) (r : List α) :
    (⟨[], r⟩ : Zipper α).skipLeft p = ⟨[], r⟩ := by
  simp [skipLeft]

theorem skipRight_nil (p : α → Bool) (l : List α) :
    (⟨l, []⟩ : Zipper α).skipRight p = ⟨l, []⟩ := by
  simp [skipRight]

theorem skipLeft_concat (p : α → Bool) (l r : List α) (a : α) :
    (⟨l ++ [a], r⟩ : Zipper α).skipLeft p =
      if p a then (⟨l, a :: r⟩ : Zipper α).skipLeft p else ⟨l ++ [a], r⟩ := by
  unfold skipLeft
  split
  · rename_i h
    rw [List.rdropWhile_concat_pos p l a h, List.rtakeWhile_concat_pos p l a h,
      List.append_assoc, List.singleton_append]
  · rename_i h
    rw [List.rdropWhile_concat_neg p l a h, List.rtakeWhile_concat_neg p l a h, List.nil_append]

theorem skipRight_cons (p : α → Bool) (l r : List α) (a : α) :
    (⟨l, a :: r⟩ : Zipper α).skipRight p =
      if p a then (⟨l ++ [a], r⟩ : Zipper α).skipRight p else ⟨l, a :: r⟩ := by
  unfold skipRight
  split <;> rename_i h <;> simp [h]

@[simp] theorem text_moveLeft (z : Zipper α) : z.moveLeft.text = z.text := by
  obtain ⟨l, r⟩ := z
  induction l using List.reverseRecOn with
  | nil => rfl
  | append_singleton l a _ => simp [text]

@[simp] theorem text_moveRight (z : Zipper α) : z.moveRight.text = z.text := by
  obtain ⟨l, r⟩ := z
  cases r with
  | nil => simp [text, moveRight]
  | cons a r => simp [text]

@[simp] theorem text_skipLeft (p : α → Bool) (z : Zipper α) : (z.skipLeft p).text = z.text := by
  rw [text, skipLeft, ← List.append_assoc, List.rdropWhile_append_rtakeWhile, text]

@[simp] theorem text_skipRight (p : α → Bool) (z : Zipper α) :
    (z.skipRight p).text = z.text := by
  rw [text, skipRight, List.append_assoc, List.takeWhile_append_dropWhile, text]

theorem edit_sublist (z : Zipper α) {e : Edit α} (he : ∀ a, e ≠ .insert a) :
    (z.edit sep e).text.Sublist z.text := by
  cases e with
  | insert a => exact absurd rfl (he a)
  | backspace => exact List.Sublist.append (List.dropLast_sublist _) (List.Sublist.refl _)
  | delete => exact List.Sublist.append (List.Sublist.refl _) (List.tail_sublist _)
  | moveLeft => exact (text_moveLeft z).symm ▸ List.Sublist.refl _
  | moveRight => exact (text_moveRight z).symm ▸ List.Sublist.refl _
  | moveHome => exact List.Sublist.refl _
  | moveEnd => simp [edit, text]
  | jumpForward => simp [edit]
  | jumpBackward => simp [edit]
  | stay => exact List.Sublist.refl _

theorem forall_mem_insert {p : α → Prop} {z : Zipper α} (h : ∀ a ∈ z.text, p a) {a : α} (ha : p a) :
    ∀ b ∈ (⟨z.left ++ [a], z.right⟩ : Zipper α).text, p b := by
  intro b hb
  simp only [text, List.mem_append, List.mem_singleton] at hb
  rcases hb with (hb | rfl) | hb
  · exact h b (List.mem_append_left _ hb)
  · exact ha
  · exact h b (List.mem_append_right _ hb)

theorem left_jumpBackward_ne_nil (z : Zipper α) :
    ((z.skipLeft sep).skipLeft (!sep ·)).left ≠ [] ↔
      ∃ a b, sep a = true ∧ sep b = false ∧ [a, b].Sublist z.left := by
  change (z.left.rdropWhile sep).rdropWhile (!sep ·) ≠ [] ↔ _
  rw [Ne, List.rdropWhile_eq_nil_iff]
  constructor
  · intro h
    obtain ⟨a, ha, hsep⟩ : ∃ a ∈ z.left.rdropWhile sep, sep a = true := by
      simpa using h
    -- The last character that is left is not a separator.
    have hne : z.left.rdropWhile sep ≠ [] := List.ne_nil_of_mem ha
    have hlast := List.rdropWhile_last_not sep z.left hne
    obtain ⟨M, b, hM⟩ := List.eq_nil_or_concat (z.left.rdropWhile sep) |>.resolve_left hne
    simp only [hM, List.concat_eq_append, List.getLast_append_singleton] at ha hlast
    have hmem : a ∈ M := by
      rcases List.mem_append.mp ha with ha | ha
      · exact ha
      · rw [List.mem_singleton.mp ha] at hsep
        exact absurd hsep hlast
    refine ⟨a, b, hsep, Bool.eq_false_iff.mpr hlast, ?_⟩
    have hsub : [a, b].Sublist (M ++ [b]) := (List.singleton_sublist.mpr hmem).append_right [b]
    rw [← List.concat_eq_append, ← hM] at hsub
    exact hsub.trans (List.rdropWhile_prefix sep z.left).sublist
  · rintro ⟨a, b, ha, hb, hsub⟩ hall
    have hsplit : z.left.rdropWhile sep ++ z.left.rtakeWhile sep = z.left :=
      List.rdropWhile_append_rtakeWhile
    rw [← hsplit, List.sublist_append_iff] at hsub
    obtain ⟨l₁, l₂, heq, h₁, h₂⟩ := hsub
    cases l₁ with
    | nil =>
      -- The word would be among the separators at the end.
      obtain rfl : [a, b] = l₂ := heq
      have hsep := List.mem_rtakeWhile_imp (h₂.subset (List.mem_cons_of_mem a List.mem_cons_self))
      rw [hb] at hsep
      exact absurd hsep Bool.false_ne_true
    | cons x l₁ =>
      obtain ⟨rfl, -⟩ := List.cons.inj heq
      have hnot := hall a (h₁.subset List.mem_cons_self)
      rw [ha] at hnot
      exact absurd hnot (by decide)

theorem edit_of_stuck {z : Zipper α} {e : Edit α} (h : z.Stuck e) : z.edit sep e = z := by
  obtain ⟨l, r⟩ := z
  cases e with
  | insert a => exact h.elim
  | stay => rfl
  | backspace | moveLeft | moveHome | jumpBackward =>
    obtain rfl : l = [] := h
    simp [edit, backspace, moveLeft, text, skipLeft_nil]
  | delete | moveRight | moveEnd | jumpForward =>
    obtain rfl : r = [] := h
    simp [edit, delete, moveRight, text, skipRight_nil]

end Zipper

end TextZipper
