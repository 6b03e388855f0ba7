import Parcel.BoundedReads
import Parcel.Utf8Encoding

/-!
# Codepoints of the console

The functions of `utf8.c`: the width of a codepoint in terminal cells, and the steps to
the previous and to the next codepoint of a string. The steps look at single bytes, and
find the encoded characters of a text.
-/

namespace Parcel
open BoundedReads Utf8Encoding

structure CodepointRange where
  start : ℕ
  last : ℕ

/-- The loop of `search_table` on `bounds`; `none` once it leaves the table. -/
def searchLoop (c : ℕ) (table : List CodepointRange) : ℕ → ℕ → ℕ → Option Bool
  | 0, _, _ => none
  | fuel + 1, upper, lower =>
    if lower ≤ upper then do
      let avg := (lower + upper) / 2
      let range ← table[avg]?
      if range.last < c then
        searchLoop c table fuel upper (avg + 1)
      else if c < range.start then
        searchLoop c table fuel (← subWithin avg 1) lower
      else
        some true
    else some false

def searchTable (c : ℕ) (table : List CodepointRange) : Option Bool := do
  let first ← table[0]?
  let final ← table[table.length - 1]?
  if c < first.start ∨ final.last < c then
    some false
  else
    searchLoop c table (table.length + 1) (table.length - 1) 0

def ucdWide : List CodepointRange :=
  [⟨0x1100, 0x115f⟩, ⟨0x231a, 0x231b⟩, ⟨0x2329, 0x232a⟩, ⟨0x23e9, 0x23ec⟩, ⟨0x23f0, 0x23f0⟩,
   ⟨0x23f3, 0x23f3⟩, ⟨0x25fd, 0x25fe⟩, ⟨0x2614, 0x2615⟩, ⟨0x2648, 0x2653⟩, ⟨0x267f, 0x267f⟩,
   ⟨0x2693, 0x2693⟩, ⟨0x26a1, 0x26a1⟩, ⟨0x26aa, 0x26ab⟩, ⟨0x26bd, 0x26be⟩, ⟨0x26c4, 0x26c5⟩,
   ⟨0x26ce, 0x26ce⟩, ⟨0x26d4, 0x26d4⟩, ⟨0x26ea, 0x26ea⟩, ⟨0x26f2, 0x26f3⟩, ⟨0x26f5, 0x26f5⟩,
   ⟨0x26fa, 0x26fa⟩, ⟨0x26fd, 0x26fd⟩, ⟨0x2705, 0x2705⟩, ⟨0x270a, 0x270b⟩, ⟨0x2728, 0x2728⟩,
   ⟨0x274c, 0x274c⟩, ⟨0x274e, 0x274e⟩, ⟨0x2753, 0x2755⟩, ⟨0x2757, 0x2757⟩, ⟨0x2795, 0x2797⟩,
   ⟨0x27b0, 0x27b0⟩, ⟨0x27bf, 0x27bf⟩, ⟨0x2b1b, 0x2b1c⟩, ⟨0x2b50, 0x2b50⟩, ⟨0x2b55, 0x2b55⟩,
   ⟨0x2e80, 0x2e99⟩, ⟨0x2e9b, 0x2ef3⟩, ⟨0x2f00, 0x2fd5⟩, ⟨0x2ff0, 0x2ffb⟩, ⟨0x3000, 0x303e⟩,
   ⟨0x3041, 0x3096⟩, ⟨0x3099, 0x30ff⟩, ⟨0x3105, 0x312f⟩, ⟨0x3131, 0x318e⟩, ⟨0x3190, 0x31e3⟩,
   ⟨0x31f0, 0x321e⟩, ⟨0x3220, 0x3247⟩, ⟨0x3250, 0x4dbf⟩, ⟨0x4e00, 0xa48c⟩, ⟨0xa490, 0xa4c6⟩,
   ⟨0xa960, 0xa97c⟩, ⟨0xac00, 0xd7a3⟩, ⟨0xf900, 0xfaff⟩, ⟨0xfe10, 0xfe19⟩, ⟨0xfe30, 0xfe52⟩,
   ⟨0xfe54, 0xfe66⟩, ⟨0xfe68, 0xfe6b⟩, ⟨0xff01, 0xff60⟩, ⟨0xffe0, 0xffe6⟩, ⟨0x16fe0, 0x16fe4⟩,
   ⟨0x16ff0, 0x16ff1⟩, ⟨0x17000, 0x187f7⟩, ⟨0x18800, 0x18cd5⟩, ⟨0x18d00, 0x18d08⟩,
   ⟨0x1aff0, 0x1aff3⟩, ⟨0x1aff5, 0x1affb⟩, ⟨0x1affd, 0x1affe⟩, ⟨0x1b000, 0x1b122⟩,
   ⟨0x1b132, 0x1b132⟩, ⟨0x1b150, 0x1b152⟩, ⟨0x1b155, 0x1b155⟩, ⟨0x1b164, 0x1b167⟩,
   ⟨0x1b170, 0x1b2fb⟩, ⟨0x1f004, 0x1f004⟩, ⟨0x1f0cf, 0x1f0cf⟩, ⟨0x1f18e, 0x1f18e⟩,
   ⟨0x1f191, 0x1f19a⟩, ⟨0x1f200, 0x1f202⟩, ⟨0x1f210, 0x1f23b⟩, ⟨0x1f240, 0x1f248⟩,
   ⟨0x1f250, 0x1f251⟩, ⟨0x1f260, 0x1f265⟩, ⟨0x1f300, 0x1f320⟩, ⟨0x1f32d, 0x1f335⟩,
   ⟨0x1f337, 0x1f37c⟩, ⟨0x1f37e, 0x1f393⟩, ⟨0x1f3a0, 0x1f3ca⟩, ⟨0x1f3cf, 0x1f3d3⟩,
   ⟨0x1f3e0, 0x1f3f0⟩, ⟨0x1f3f4, 0x1f3f4⟩, ⟨0x1f3f8, 0x1f43e⟩, ⟨0x1f440, 0x1f440⟩,
   ⟨0x1f442, 0x1f4fc⟩, ⟨0x1f4ff, 0x1f53d⟩, ⟨0x1f54b, 0x1f54e⟩, ⟨0x1f550, 0x1f567⟩,
   ⟨0x1f57a, 0x1f57a⟩, ⟨0x1f595, 0x1f596⟩, ⟨0x1f5a4, 0x1f5a4⟩, ⟨0x1f5fb, 0x1f64f⟩,
   ⟨0x1f680, 0x1f6c5⟩, ⟨0x1f6cc, 0x1f6cc⟩, ⟨0x1f6d0, 0x1f6d2⟩, ⟨0x1f6d5, 0x1f6d7⟩,
   ⟨0x1f6dc, 0x1f6df⟩, ⟨0x1f6eb, 0x1f6ec⟩, ⟨0x1f6f4, 0x1f6fc⟩, ⟨0x1f7e0, 0x1f7eb⟩,
   ⟨0x1f7f0, 0x1f7f0⟩, ⟨0x1f90c, 0x1f93a⟩, ⟨0x1f93c, 0x1f945⟩, ⟨0x1f947, 0x1f9ff⟩,
   ⟨0x1fa70, 0x1fa7c⟩, ⟨0x1fa80, 0x1fa88⟩, ⟨0x1fa90, 0x1fabd⟩, ⟨0x1fabf, 0x1fac5⟩,
   ⟨0x1face, 0x1fadb⟩, ⟨0x1fae0, 0x1fae8⟩, ⟨0x1faf0, 0x1faf8⟩, ⟨0x20000, 0x2fffd⟩,
   ⟨0x30000, 0x3fffd⟩]

def ucdAmbiguous : List CodepointRange :=
  [⟨0xa1, 0xa1⟩, ⟨0xa4, 0xa4⟩, ⟨0xa7, 0xa8⟩, ⟨0xaa, 0xaa⟩, ⟨0xad, 0xae⟩, ⟨0xb0, 0xb4⟩,
   ⟨0xb6, 0xba⟩, ⟨0xbc, 0xbf⟩, ⟨0xc6, 0xc6⟩, ⟨0xd0, 0xd0⟩, ⟨0xd7, 0xd8⟩, ⟨0xde, 0xe1⟩,
   ⟨0xe6, 0xe6⟩, ⟨0xe8, 0xea⟩, ⟨0xec, 0xed⟩, ⟨0xf0, 0xf0⟩, ⟨0xf2, 0xf3⟩, ⟨0xf7, 0xfa⟩,
   ⟨0xfc, 0xfc⟩, ⟨0xfe, 0xfe⟩, ⟨0x101, 0x101⟩, ⟨0x111, 0x111⟩, ⟨0x113, 0x113⟩, ⟨0x11b, 0x11b⟩,
   ⟨0x126, 0x127⟩, ⟨0x12b, 0x12b⟩, ⟨0x131, 0x133⟩, ⟨0x138, 0x138⟩, ⟨0x13f, 0x142⟩, ⟨0x144, 0x144⟩,
   ⟨0x148, 0x14b⟩, ⟨0x14d, 0x14d⟩, ⟨0x152, 0x153⟩, ⟨0x166, 0x167⟩, ⟨0x16b, 0x16b⟩, ⟨0x1ce, 0x1ce⟩,
   ⟨0x1d0, 0x1d0⟩, ⟨0x1d2, 0x1d2⟩, ⟨0x1d4, 0x1d4⟩, ⟨0x1d6, 0x1d6⟩, ⟨0x1d8, 0x1d8⟩, ⟨0x1da, 0x1da⟩,
   ⟨0x1dc, 0x1dc⟩, ⟨0x251, 0x251⟩, ⟨0x261, 0x261⟩, ⟨0x2c4, 0x2c4⟩, ⟨0x2c7, 0x2c7⟩, ⟨0x2c9, 0x2cb⟩,
   ⟨0x2cd, 0x2cd⟩, ⟨0x2d0, 0x2d0⟩, ⟨0x2d8, 0x2db⟩, ⟨0x2dd, 0x2dd⟩, ⟨0x2df, 0x2df⟩, ⟨0x300, 0x36f⟩,
   ⟨0x391, 0x3a1⟩, ⟨0x3a3, 0x3a9⟩, ⟨0x3b1, 0x3c1⟩, ⟨0x3c3, 0x3c9⟩, ⟨0x401, 0x401⟩, ⟨0x410, 0x44f⟩,
   ⟨0x451, 0x451⟩, ⟨0x2010, 0x2010⟩, ⟨0x2013, 0x2016⟩, ⟨0x2018, 0x2019⟩, ⟨0x201c, 0x201d⟩,
   ⟨0x2020, 0x2022⟩, ⟨0x2024, 0x2027⟩, ⟨0x2030, 0x2030⟩, ⟨0x2032, 0x2033⟩, ⟨0x2035, 0x2035⟩,
   ⟨0x203b, 0x203b⟩, ⟨0x203e, 0x203e⟩, ⟨0x2074, 0x2074⟩, ⟨0x207f, 0x207f⟩, ⟨0x2081, 0x2084⟩,
   ⟨0x20ac, 0x20ac⟩, ⟨0x2103, 0x2103⟩, ⟨0x2105, 0x2105⟩, ⟨0x2109, 0x2109⟩, ⟨0x2113, 0x2113⟩,
   ⟨0x2116, 0x2116⟩, ⟨0x2121, 0x2122⟩, ⟨0x2126, 0x2126⟩, ⟨0x212b, 0x212b⟩, ⟨0x2153, 0x2154⟩,
   ⟨0x215b, 0x215e⟩, ⟨0x2160, 0x216b⟩, ⟨0x2170, 0x2179⟩, ⟨0x2189, 0x2189⟩, ⟨0x2190, 0x2199⟩,
   ⟨0x21b8, 0x21b9⟩, ⟨0x21d2, 0x21d2⟩, ⟨0x21d4, 0x21d4⟩, ⟨0x21e7, 0x21e7⟩, ⟨0x2200, 0x2200⟩,
   ⟨0x2202, 0x2203⟩, ⟨0x2207, 0x2208⟩, ⟨0x220b, 0x220b⟩, ⟨0x220f, 0x220f⟩, ⟨0x2211, 0x2211⟩,
   ⟨0x2215, 0x2215⟩, ⟨0x221a, 0x221a⟩, ⟨0x221d, 0x2220⟩, ⟨0x2223, 0x2223⟩, ⟨0x2225, 0x2225⟩,
   ⟨0x2227, 0x222c⟩, ⟨0x222e, 0x222e⟩, ⟨0x2234, 0x2237⟩, ⟨0x223c, 0x223d⟩, ⟨0x2248, 0x2248⟩,
   ⟨0x224c, 0x224c⟩, ⟨0x2252, 0x2252⟩, ⟨0x2260, 0x2261⟩, ⟨0x2264, 0x2267⟩, ⟨0x226a, 0x226b⟩,
   ⟨0x226e, 0x226f⟩, ⟨0x2282, 0x2283⟩, ⟨0x2286, 0x2287⟩, ⟨0x2295, 0x2295⟩, ⟨0x2299, 0x2299⟩,
   ⟨0x22a5, 0x22a5⟩, ⟨0x22bf, 0x22bf⟩, ⟨0x2312, 0x2312⟩, ⟨0x2460, 0x24e9⟩, ⟨0x24eb, 0x254b⟩,
   ⟨0x2550, 0x2573⟩, ⟨0x2580, 0x258f⟩, ⟨0x2592, 0x2595⟩, ⟨0x25a0, 0x25a1⟩, ⟨0x25a3, 0x25a9⟩,
   ⟨0x25b2, 0x25b3⟩, ⟨0x25b6, 0x25b7⟩, ⟨0x25bc, 0x25bd⟩, ⟨0x25c0, 0x25c1⟩, ⟨0x25c6, 0x25c8⟩,
   ⟨0x25cb, 0x25cb⟩, ⟨0x25ce, 0x25d1⟩, ⟨0x25e2, 0x25e5⟩, ⟨0x25ef, 0x25ef⟩, ⟨0x2605, 0x2606⟩,
   ⟨0x2609, 0x2609⟩, ⟨0x260e, 0x260f⟩, ⟨0x261c, 0x261c⟩, ⟨0x261e, 0x261e⟩, ⟨0x2640, 0x2640⟩,
   ⟨0x2642, 0x2642⟩, ⟨0x2660, 0x2661⟩, ⟨0x2663, 0x2665⟩, ⟨0x2667, 0x266a⟩, ⟨0x266c, 0x266d⟩,
   ⟨0x266f, 0x266f⟩, ⟨0x269e, 0x269f⟩, ⟨0x26bf, 0x26bf⟩, ⟨0x26c6, 0x26cd⟩, ⟨0x26cf, 0x26d3⟩,
   ⟨0x26d5, 0x26e1⟩, ⟨0x26e3, 0x26e3⟩, ⟨0x26e8, 0x26e9⟩, ⟨0x26eb, 0x26f1⟩, ⟨0x26f4, 0x26f4⟩,
   ⟨0x26f6, 0x26f9⟩, ⟨0x26fb, 0x26fc⟩, ⟨0x26fe, 0x26ff⟩, ⟨0x273d, 0x273d⟩, ⟨0x2776, 0x277f⟩,
   ⟨0x2b56, 0x2b59⟩, ⟨0x3248, 0x324f⟩, ⟨0xe000, 0xf8ff⟩, ⟨0xfe00, 0xfe0f⟩, ⟨0xfffd, 0xfffd⟩,
   ⟨0x1f100, 0x1f10a⟩, ⟨0x1f110, 0x1f12d⟩, ⟨0x1f130, 0x1f169⟩, ⟨0x1f170, 0x1f18d⟩,
   ⟨0x1f18f, 0x1f190⟩, ⟨0x1f19b, 0x1f1ac⟩, ⟨0xe0100, 0xe01ef⟩, ⟨0xf0000, 0xffffd⟩,
   ⟨0x100000, 0x10fffd⟩]

def cpRenderedWidth (c : ℕ) : ℕ :=
  if 0x20 ≤ c ∧ c ≤ 0x7e then 1
  else if searchTable c ucdWide = some true then 2
  else if searchTable c ucdAmbiguous = some true then 2
  else 1

/-- The function `utf8_to_utf32`, `none` when it reads past the end of `c`. -/
def utf8ToUtf32 (c : List UInt8) (cpSize : ℕ) : Option ℕ :=
  match cpSize, c with
  | 0, _ => some 0
  | 1, c0 :: _ => some c0.toNat
  | 2, c0 :: c1 :: _ => some ((c0 &&& 0x1f).toNat <<< 6 ||| (c1 &&& 0x3f).toNat)
  | 3, c0 :: c1 :: c2 :: _ =>
    some ((c0 &&& 0x0f).toNat <<< 12 ||| (c1 &&& 0x3f).toNat <<< 6 ||| (c2 &&& 0x3f).toNat)
  | 4, c0 :: c1 :: c2 :: c3 :: _ =>
    some ((c0 &&& 0x07).toNat <<< 18 ||| (c1 &&& 0x3f).toNat <<< 12 |||
      (c2 &&& 0x3f).toNat <<< 6 ||| (c3 &&& 0x3f).toNat)
  | n, _ => if n ≤ 4 then none else some 0

def codepointWidth (s : List UInt8) (len : ℕ) : Option ℕ := (utf8ToUtf32 s len).map cpRenderedWidth

/-- The first byte of a codepoint, its size in bytes and its length in cells. -/
structure Codepoint where
  lead : UInt8
  size : ℕ
  len : ℕ

/-- The bytes that `prev_codepoint` steps over, in the order of the string. The bytes
before the string come nearest first. -/
def prevBytes : List UInt8 → Option (UInt8 × List UInt8)
  | [] => none
  | b :: before =>
    if b &&& 0x80 ≠ 0 ∧ b &&& 0xc0 = 0x80 then do
      let (lead, tail) ← prevBytes before
      some (lead, tail ++ [b])
    else some (b, [])

def prevCodepoint (before : List UInt8) : Option Codepoint := do
  let (lead, tail) ← prevBytes before
  let cpBytes := tail.length + 1
  let cpLen ← codepointWidth (lead :: tail) cpBytes
  some ⟨lead, cpBytes, cpLen⟩

def nextCodepoint (str : List UInt8) : Option Codepoint := do
  let lead ← str[0]?
  let cpBytes :=
    if lead &&& 0xf8 = 0xf0 then 4
    else if lead &&& 0xf0 = 0xe0 then 3
    else if lead &&& 0xe0 = 0xc0 then 2
    else 1
  let cpLen ← codepointWidth str cpBytes
  some ⟨lead, cpBytes, cpLen⟩

theorem cpRenderedWidth_pos (c : ℕ) : 0 < cpRenderedWidth c := by
  unfold cpRenderedWidth
  split_ifs <;> decide

theorem or_shift_tail (v : ℕ) {b : ℕ} (h : b < 64) : v <<< 6 ||| b = v * 64 + b := by
  rw [← Nat.shiftLeft_add_eq_or_of_lt (i := 6) h, Nat.shiftLeft_eq]

theorem or_shift_tails (v : ℕ) {b c : ℕ} (hb : b < 64) (hc : c < 64) :
    v <<< 12 ||| b <<< 6 ||| c = (v * 64 + b) * 64 + c := by
  rw [Nat.shiftLeft_add v 6 6, ← Nat.shiftLeft_or_distrib, or_shift_tail v hb,
    or_shift_tail _ hc]

theorem utf8ToUtf32_encodeChar (c : Char) (rest : List UInt8) :
    utf8ToUtf32 (encodeChar c ++ rest) (encodeChar c).length = some c.toNat := by
  have hmod (v : ℕ) : v % 64 < 64 := Nat.mod_lt _ (by decide)
  unfold encodeChar
  fun_cases String.utf8EncodeChar c with
  | case1 v h =>
    exact congrArg some (announced_one v h).2.2.1
  | case2 v =>
    have hlead := (announced_two (v / 64 % 32) (Nat.mod_lt _ (by decide))).2.2.1
    refine congrArg some ?_
    rw [hlead, payload_tail, or_shift_tail _ (hmod v)]
    change _ = v
    omega
  | case3 v =>
    have hlead := (announced_three (v / 4096 % 16) (Nat.mod_lt _ (by decide))).2.2.1
    refine congrArg some ?_
    rw [hlead, payload_tail, payload_tail, or_shift_tails _ (hmod _) (hmod v)]
    change _ = v
    omega
  | case4 v =>
    have hlead := (announced_four (v / 262144 % 8) (quotient_lt c)).2.2.1
    have hlt : v < 1114112 := val_lt c
    refine congrArg some ?_
    rw [hlead, payload_tail, payload_tail, payload_tail, Nat.shiftLeft_add _ 6 12,
      ← Nat.shiftLeft_or_distrib, or_shift_tail _ (hmod _), or_shift_tails _ (hmod _) (hmod v)]
    change _ = v
    omega

theorem codepointWidth_encodeChar (c : Char) (rest : List UInt8) :
    codepointWidth (encodeChar c ++ rest) (encodeChar c).length =
      some (cpRenderedWidth c.toNat) := by
  rw [codepointWidth, utf8ToUtf32_encodeChar, Option.map_some]

theorem isContinuation_iff (b : UInt8) :
    (b &&& 0x80 ≠ 0 ∧ b &&& 0xc0 = 0x80) ↔ isContinuation b = true := by
  have h : ∀ n < 256, (UInt8.ofNat n &&& 0x80 ≠ 0 ∧ UInt8.ofNat n &&& 0xc0 = 0x80) ↔
      isContinuation (UInt8.ofNat n) = true := by decide +kernel
  have hb := h b.toNat b.toNat_lt
  rwa [UInt8.ofNat_toNat] at hb

theorem prevBytes_lead {b : UInt8} (h : isContinuation b = false) (before : List UInt8) :
    prevBytes (b :: before) = some (b, []) := by
  rw [prevBytes, if_neg]
  rw [isContinuation_iff, h]
  exact Bool.false_ne_true

theorem prevBytes_continuation {b : UInt8} (h : isContinuation b = true) (before : List UInt8) :
    prevBytes (b :: before) = (prevBytes before).map fun s => (s.1, s.2 ++ [b]) := by
  rw [prevBytes, if_pos ((isContinuation_iff b).mpr h)]
  cases prevBytes before <;> rfl

theorem prevBytes_tail {lead : UInt8} (hlead : isContinuation lead = false) (tail : List UInt8)
    (htail : ∀ b ∈ tail, isContinuation b = true) (before : List UInt8) :
    prevBytes (tail.reverse ++ lead :: before) = some (lead, tail) := by
  induction tail using List.reverseRecOn with
  | nil => exact prevBytes_lead hlead before
  | append_singleton tail b ih =>
    rw [List.reverse_append, List.reverse_singleton, List.singleton_append, List.cons_append,
      prevBytes_continuation (htail b (by simp)), ih fun x hx => htail x (by simp [hx])]
    rfl

def Codepoint.ofChar (c : Char) : Codepoint :=
  ⟨(encodeChar c).headD 0, (encodeChar c).length, cpRenderedWidth c.toNat⟩

theorem Codepoint.lead_ofChar_eq_iff (c : Char) {d : Char} (hd : d.toNat < 128) :
    (ofChar c).lead = UInt8.ofNat d.toNat ↔ c = d := by
  obtain ⟨lead, tail, h, -⟩ := exists_wellFormed c
  rw [ofChar, h]
  exact lead_eq_iff hd h

theorem codepointWidth_zero (s : List UInt8) : codepointWidth s 0 = some 1 := by
  have hwidth : cpRenderedWidth 0 = 1 := by decide +kernel
  rw [codepointWidth, utf8ToUtf32, Option.map_some, hwidth]

theorem utf8ToUtf32_append {s : List UInt8} {len : ℕ} (h : len ≤ s.length) (rest : List UInt8) :
    utf8ToUtf32 (s ++ rest) len = utf8ToUtf32 s len := by
  match len, s, h with
  | 0, _, _ => rfl
  | 1, _ :: _, _ => rfl
  | 2, _ :: _ :: _, _ => rfl
  | 3, _ :: _ :: _ :: _, _ => rfl
  | 4, _ :: _ :: _ :: _ :: _, _ => rfl
  | _ + 5, _, _ => simp [utf8ToUtf32]

theorem codepointWidth_isSome {s : List UInt8} {len : ℕ} (h : len ≤ s.length) :
    (codepointWidth s len).isSome := by
  rw [codepointWidth, Option.isSome_map]
  match len, s, h with
  | 0, _, _ => rfl
  | 1, _ :: _, _ => rfl
  | 2, _ :: _ :: _, _ => rfl
  | 3, _ :: _ :: _ :: _, _ => rfl
  | 4, _ :: _ :: _ :: _ :: _, _ => rfl
  | _ + 5, _, _ => rfl

/-- The items of a line: a lead byte with the bytes that it announces, and a number of
cells. -/
class Coded (α : Type) where
  bytes : α → List UInt8
  width : α → ℕ
  exists_wellFormed : ∀ a, ∃ lead tail, bytes a = lead :: tail ∧ WellFormed lead tail
  codepointWidth_bytes : ∀ a rest,
    codepointWidth (bytes a ++ rest) (bytes a).length = some (width a)

instance : Coded Char where
  bytes := encodeChar
  width c := cpRenderedWidth c.toNat
  exists_wellFormed := exists_wellFormed
  codepointWidth_bytes := codepointWidth_encodeChar

instance : Coded ByteSeq where
  bytes := ByteSeq.bytes
  width s := (codepointWidth s.bytes s.bytes.length).getD 0
  exists_wellFormed s := ⟨s.lead, s.tail, rfl, s.wellFormed⟩
  codepointWidth_bytes s rest := by
    obtain ⟨n, hn⟩ := Option.isSome_iff_exists.mp
      (codepointWidth_isSome (s := s.bytes) le_rfl)
    rw [hn, Option.getD_some, ← hn, codepointWidth, utf8ToUtf32_append le_rfl, codepointWidth]

namespace Coded

variable {α : Type} [Coded α]

def lead (a : α) : UInt8 := (bytes a).headD 0

theorem width_pos (a : α) : 0 < width a := by
  obtain ⟨n, -, hn⟩ := Option.map_eq_some_iff.mp (codepointWidth_bytes a [])
  rw [← hn]
  exact cpRenderedWidth_pos n

theorem length_pos (a : α) : 0 < (bytes a).length := by
  obtain ⟨lead, tail, h, -⟩ := exists_wellFormed a
  rw [h]
  exact Nat.succ_pos _

end Coded

def Codepoint.of {α : Type} [Coded α] (a : α) : Codepoint :=
  ⟨Coded.lead a, (Coded.bytes a).length, Coded.width a⟩

section

variable {α : Type} [Coded α]

theorem prevCodepoint_bytes (a : α) (before : List UInt8) :
    prevCodepoint ((Coded.bytes a).reverse ++ before) = some (Codepoint.of a) := by
  obtain ⟨lead, tail, h, -, hlead, htail, -⟩ := Coded.exists_wellFormed a
  have hwidth := Coded.codepointWidth_bytes a []
  rw [List.append_nil, h, List.length_cons] at hwidth
  rw [Codepoint.of, Coded.lead, h, List.reverse_cons, List.append_assoc, List.singleton_append,
    prevCodepoint, prevBytes_tail hlead tail htail before]
  simp [hwidth]

theorem nextCodepoint_bytes (a : α) (rest : List UInt8) :
    nextCodepoint (Coded.bytes a ++ rest) = some (Codepoint.of a) := by
  obtain ⟨lead, tail, h, hwf⟩ := Coded.exists_wellFormed a
  have hwidth := Coded.codepointWidth_bytes a rest
  have hsize : announced lead = (Coded.bytes a).length := by
    rw [h, List.length_cons]
    exact hwf.announced_eq
  have hlead : (Coded.bytes a ++ rest)[0]? = some lead := by
    rw [h]
    rfl
  rw [nextCodepoint, hlead]
  change (codepointWidth _ (announced lead)).bind
    (fun n => some (Codepoint.mk lead (announced lead) n)) = _
  rw [hsize, hwidth, Codepoint.of, Coded.lead, h]
  rfl

end

theorem prevBytes_isSome {before : List UInt8} (h : ∃ b ∈ before, isContinuation b = false) :
    (prevBytes before).isSome := by
  induction before with
  | nil => simp at h
  | cons b before ih =>
    cases hb : isContinuation b with
    | false => rw [prevBytes_lead hb, Option.isSome_some]
    | true =>
      obtain ⟨d, hd, hnot⟩ := h
      have hmem : d ∈ before := by
        rcases List.mem_cons.mp hd with rfl | hd
        · rw [hb] at hnot
          exact absurd hnot (by decide)
        · exact hd
      rw [prevBytes_continuation hb, Option.isSome_map]
      exact ih ⟨d, hmem, hnot⟩

/-- The scan stops at the first byte that does not continue a character. -/
theorem prevCodepoint_isSome {before : List UInt8} (h : ∃ b ∈ before, isContinuation b = false) :
    (prevCodepoint before).isSome := by
  obtain ⟨s, hs⟩ := Option.isSome_iff_exists.mp (prevBytes_isSome h)
  have hwidth : (codepointWidth (s.1 :: s.2) (s.2.length + 1)).isSome :=
    codepointWidth_isSome le_rfl
  obtain ⟨n, hn⟩ := Option.isSome_iff_exists.mp hwidth
  rw [prevCodepoint, hs]
  simp [hn]

end Parcel
