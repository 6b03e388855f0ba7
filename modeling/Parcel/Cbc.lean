import Mathlib

/-!
# Cipher block chaining

CBC over an arbitrary block type with a cancelling `xor` and a pair of maps
`E`, `D`. The chaining value after a call is the last ciphertext block, or the
initial value when there was none.
-/

namespace Cbc

variable {B : Type*} (xor : B → B → B)

def encrypt (E : B → B) : B → List B → List B
  | _, [] => []
  | iv, x :: xs => E (xor x iv) :: encrypt E (E (xor x iv)) xs

def decrypt (D : B → B) : B → List B → List B
  | _, [] => []
  | iv, c :: cs => xor (D c) iv :: decrypt D c cs

variable {xor} {E D : B → B}

@[simp] theorem encrypt_length (iv : B) (xs : List B) :
    (encrypt xor E iv xs).length = xs.length := by
  induction xs generalizing iv with
  | nil => rfl
  | cons x xs ih => simp [encrypt, ih]

@[simp] theorem decrypt_length (iv : B) (cs : List B) :
    (decrypt xor D iv cs).length = cs.length := by
  induction cs generalizing iv with
  | nil => rfl
  | cons c cs ih => simp [decrypt, ih]

theorem decrypt_encrypt (hxor : ∀ a b, xor (xor a b) b = a) (hinv : ∀ x, D (E x) = x)
    (iv : B) (xs : List B) : decrypt xor D iv (encrypt xor E iv xs) = xs := by
  induction xs generalizing iv with
  | nil => rfl
  | cons x xs ih => rw [encrypt, decrypt, hinv, hxor, ih]

theorem encrypt_decrypt (hxor : ∀ a b, xor (xor a b) b = a) (hinv : ∀ x, E (D x) = x)
    (iv : B) (cs : List B) : encrypt xor E iv (decrypt xor D iv cs) = cs := by
  induction cs generalizing iv with
  | nil => rfl
  | cons c cs ih => rw [decrypt, encrypt, hxor, hinv, ih]

theorem encrypt_append (iv : B) (xs ys : List B) :
    encrypt xor E iv (xs ++ ys) =
      encrypt xor E iv xs ++ encrypt xor E ((encrypt xor E iv xs).getLastD iv) ys := by
  induction xs generalizing iv with
  | nil => rfl
  | cons x xs ih =>
    rw [List.cons_append, encrypt, encrypt, ih, List.cons_append, List.getLastD_cons]

theorem decrypt_append (iv : B) (cs ds : List B) :
    decrypt xor D iv (cs ++ ds) = decrypt xor D iv cs ++ decrypt xor D (cs.getLastD iv) ds := by
  induction cs generalizing iv with
  | nil => rfl
  | cons c cs ih =>
    rw [List.cons_append, decrypt, decrypt, ih, List.cons_append, List.getLastD_cons]

end Cbc
