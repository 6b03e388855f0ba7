import Parcel.Utf8Encoding

/-!
# A terminal

A screen of cells that is written by a stream of bytes: UTF-8 encoded glyphs of one or
more cells, carriage return and line feed, and the control sequences that move the
cursor and erase a line. A glyph in the last column leaves the cursor there, and it is
the next glyph that moves it to the next row.
-/

namespace Terminal
open Utf8Encoding

inductive Cell
  | blank
  | glyph (bytes : List UInt8)
  /-- A further cell of a wide glyph. -/
  | rest
  deriving DecidableEq

structure Screen where
  cell : ℕ → ℕ → Cell
  row : ℕ
  column : ℕ
  /-- The last column has been written. -/
  pending : Bool

inductive Reading
  | ground
  | escape
  | control (params : List UInt8)
  | glyph (bytes : List UInt8) (missing : ℕ)
  deriving DecidableEq

structure Format where
  width : ℕ
  height : ℕ
  cells : List UInt8 → ℕ

namespace Screen

def carriageReturn (s : Screen) : Screen := { s with column := 0, pending := false }

def lineFeed (f : Format) (s : Screen) : Screen :=
  if s.row + 1 < f.height then { s with row := s.row + 1, pending := false }
  else
    { s with
      cell := fun r c => if r + 1 < f.height then s.cell (r + 1) c else .blank
      pending := false }

def eraseRight (s : Screen) : Screen :=
  { s with cell := fun r c => if r = s.row ∧ s.column ≤ c then .blank else s.cell r c }

def write (cells : ℕ) (bytes : List UInt8) (s : Screen) : Screen :=
  { s with cell := fun r c =>
      if r = s.row ∧ c = s.column then .glyph bytes
      else if r = s.row ∧ s.column < c ∧ c < s.column + cells then .rest
      else s.cell r c }

def advance (f : Format) (cells : ℕ) (s : Screen) : Screen :=
  if s.column + cells < f.width then { s with column := s.column + cells }
  else { s with column := f.width - 1, pending := true }

def put (f : Format) (s : Screen) (bytes : List UInt8) : Screen :=
  let cells := f.cells bytes
  let s := if s.pending ∨ f.width < s.column + cells then (s.lineFeed f).carriageReturn else s
  (s.write cells bytes).advance f cells

def count (params : List UInt8) : ℕ := params.foldl (fun n b => 10 * n + (b.toNat - 48)) 0

def control (f : Format) (s : Screen) (params : List UInt8) (final : UInt8) : Screen :=
  let n := max 1 (count params)
  if final = 0x41 then { s with row := s.row - n, pending := false }
  else if final = 0x42 then { s with row := min (s.row + n) (f.height - 1), pending := false }
  else if final = 0x43 then { s with column := min (s.column + n) (f.width - 1), pending := false }
  else if final = 0x4b ∧ count params = 0 then s.eraseRight
  else s

end Screen

def feed (f : Format) : Screen × Reading → UInt8 → Screen × Reading
  | (s, .ground), b =>
    if b = 0x0d then (s.carriageReturn, .ground)
    else if b = 0x0a then (s.lineFeed f, .ground)
    else if b = 0x1b then (s, .escape)
    else if b < 0x20 ∨ b = 0x7f then (s, .ground)
    else if announced b = 1 then (s.put f [b], .ground)
    else (s, .glyph [b] (announced b - 1))
  | (s, .escape), b => if b = 0x5b then (s, .control []) else (s, .ground)
  | (s, .control params), b =>
    if 0x40 ≤ b then (s.control f params b, .ground) else (s, .control (params ++ [b]))
  | (s, .glyph bytes missing), b =>
    if missing ≤ 1 then (s.put f (bytes ++ [b]), .ground)
    else (s, .glyph (bytes ++ [b]) (missing - 1))

def display (f : Format) (s : Screen × Reading) (bytes : List UInt8) : Screen × Reading :=
  bytes.foldl (feed f) s

variable {f : Format} {s : Screen}

theorem display_append (t : Screen × Reading) (bytes rest : List UInt8) :
    display f t (bytes ++ rest) = display f (display f t bytes) rest := List.foldl_append

theorem display_params {params : List UInt8} (h : ∀ b ∈ params, b < 0x40) (start : List UInt8) :
    display f (s, .control start) params = (s, .control (start ++ params)) := by
  induction params generalizing start with
  | nil => rw [List.append_nil]; rfl
  | cons b params ih =>
    have hb : ¬0x40 ≤ b := UInt8.not_le.mpr (h b List.mem_cons_self)
    have hrest := ih (fun x hx => h x (List.mem_cons_of_mem b hx)) (start ++ [b])
    rw [List.append_assoc, List.singleton_append] at hrest
    rw [← hrest, display, List.foldl_cons, feed, if_neg hb]
    rfl

theorem display_control {params : List UInt8} (h : ∀ b ∈ params, b < 0x40) {final : UInt8}
    (hfinal : 0x40 ≤ final) : display f (s, .ground) ([0x1b, 0x5b] ++ params ++ [final]) =
      (s.control f params final, .ground) := by
  have hstart : display f (s, .ground) [0x1b, 0x5b] = (s, .control []) := rfl
  rw [display_append, display_append, hstart, display_params h, List.nil_append, display,
    List.foldl_cons, feed, if_pos hfinal]
  rfl

theorem control_up (params : List UInt8) : s.control f params 0x41 =
    { s with row := s.row - max 1 (Screen.count params), pending := false } := rfl

theorem control_down (params : List UInt8) : s.control f params 0x42 =
    { s with
      row := min (s.row + max 1 (Screen.count params)) (f.height - 1)
      pending := false } := rfl

theorem control_right (params : List UInt8) : s.control f params 0x43 =
    { s with
      column := min (s.column + max 1 (Screen.count params)) (f.width - 1)
      pending := false } := rfl

/-- The bytes draw the glyphs, one after the other, and do nothing else. -/
def Draws (f : Format) (bytes : List UInt8) (glyphs : List (List UInt8)) : Prop :=
  ∀ s, display f (s, .ground) bytes = (glyphs.foldl (Screen.put f) s, .ground)

theorem draws_nil : Draws f [] [] := fun _ => rfl

theorem Draws.append {bytes rest : List UInt8} {glyphs others : List (List UInt8)}
    (h : Draws f bytes glyphs) (h' : Draws f rest others) :
    Draws f (bytes ++ rest) (glyphs ++ others) := by
  intro s
  rw [display_append, h, h', List.foldl_append]

theorem display_tail (start tail : List UInt8) (hne : tail ≠ []) :
    display f (s, .glyph start tail.length) tail = (s.put f (start ++ tail), .ground) := by
  induction tail generalizing start with
  | nil => exact absurd rfl hne
  | cons b tail ih =>
    rw [display, List.foldl_cons, feed]
    cases tail with
    | nil => rfl
    | cons c tail =>
      rw [if_neg (by simp)]
      have hrest := ih (start ++ [b]) (List.cons_ne_nil c tail)
      rw [List.append_assoc, List.singleton_append] at hrest
      exact hrest

theorem draws_glyph {lead : UInt8} {tail : List UInt8} (h : WellFormed lead tail)
    (hspace : 0x20 ≤ lead) (hdelete : lead ≠ 0x7f) : Draws f (lead :: tail) [lead :: tail] := by
  intro s
  have hcontrol : ¬(lead < 0x20 ∨ lead = 0x7f) := by
    rw [not_or]
    exact ⟨UInt8.not_lt.mpr hspace, hdelete⟩
  have hreturn : lead ≠ 0x0d := by
    rintro rfl
    exact absurd hspace (by decide)
  have hfeed : lead ≠ 0x0a := by
    rintro rfl
    exact absurd hspace (by decide)
  have hescape : lead ≠ 0x1b := by
    rintro rfl
    exact absurd hspace (by decide)
  rw [display, List.foldl_cons, feed, if_neg hreturn, if_neg hfeed, if_neg hescape,
    if_neg hcontrol, h.announced_eq]
  cases tail with
  | nil => rfl
  | cons b tail =>
    rw [if_neg (by simp)]
    exact display_tail [lead] (b :: tail) (List.cons_ne_nil b tail)

theorem draws_style {params : List UInt8} (h : ∀ b ∈ params, b < 0x40) :
    Draws f ([0x1b, 0x5b] ++ params ++ [0x6d]) [] := by
  intro s
  rw [display_control h (by decide)]
  rfl

def layout (f : Format) (glyphs : List (List UInt8)) : List Cell :=
  glyphs.flatMap fun g => .glyph g :: List.replicate (f.cells g - 1) .rest

def breadth (f : Format) (glyphs : List (List UInt8)) : ℕ := (glyphs.map f.cells).sum

/-- The rows from `top` on show the text and nothing else. -/
def Screen.Shows (f : Format) (top : ℕ) (glyphs : List (List UInt8)) (s : Screen) : Prop :=
  ∀ r c, c < f.width → s.cell (top + r) c = (layout f glyphs)[r * f.width + c]?.getD .blank

/-- The cursor behind `n` cells; behind a full row it is still in it. -/
def Screen.Behind (f : Format) (top n : ℕ) (s : Screen) : Prop :=
  if n % f.width = 0 ∧ n ≠ 0 then
    s.row + 1 = top + n / f.width ∧ s.column = f.width - 1 ∧ s.pending = true
  else s.row = top + n / f.width ∧ s.column = n % f.width ∧ s.pending = false

def Fits (f : Format) : ℕ → List (List UInt8) → Prop
  | _, [] => True
  | n, g :: gs => 0 < f.cells g ∧ n % f.width + f.cells g ≤ f.width ∧ Fits f (n + f.cells g) gs

theorem Fits.pos {n : ℕ} {gs : List (List UInt8)} (h : Fits f n gs) : ∀ g ∈ gs, 0 < f.cells g := by
  induction gs generalizing n with
  | nil => exact fun g hg => absurd hg List.not_mem_nil
  | cons g gs ih =>
    intro g' hg'
    rcases List.mem_cons.mp hg' with rfl | hg'
    · exact h.1
    · exact ih h.2.2 g' hg'

def SameAbove (top : ℕ) (s s' : Screen) : Prop := ∀ r < top, ∀ c, s'.cell r c = s.cell r c

theorem SameAbove.trans {top : ℕ} {s s' s'' : Screen} (h : SameAbove top s s')
    (h' : SameAbove top s' s'') : SameAbove top s s'' :=
  fun r hr c => (h' r hr c).trans (h r hr c)

variable {top n : ℕ} {g : List UInt8} {gs : List (List UInt8)}

theorem put_eq (hn : s.Behind f top n)
    (hfit : n % f.width + f.cells g ≤ f.width) (hroom : top + n / f.width < f.height) :
    s.put f g = Screen.advance f (f.cells g) (Screen.write (f.cells g) g
      { s with row := top + n / f.width, column := n % f.width, pending := false }) := by
  unfold Screen.put
  dsimp only
  unfold Screen.Behind at hn
  split at hn
  · rename_i hfull
    obtain ⟨hrow, hcolumn, hpending⟩ := hn
    have hstart : (s.lineFeed f).carriageReturn =
        { s with row := top + n / f.width, column := n % f.width, pending := false } := by
      rw [Screen.lineFeed, if_pos (by omega), Screen.carriageReturn, hrow, hfull.1]
    rw [if_pos (Or.inl hpending), hstart]
  · obtain ⟨hrow, hcolumn, hpending⟩ := hn
    have hstart : s =
        { s with row := top + n / f.width, column := n % f.width, pending := false } := by
      rw [← hrow, ← hcolumn, ← hpending]
    have hplace : ¬(s.pending = true ∨ f.width < s.column + f.cells g) := by
      rw [hpending, hcolumn, not_or]
      exact ⟨Bool.false_ne_true, by omega⟩
    rw [if_neg hplace, ← hstart]

theorem add_div_mod {w k : ℕ} (hw : 0 < w) :
    (n + k) / w = n / w + (n % w + k) / w ∧ (n + k) % w = (n % w + k) % w := by
  have hn : n + k = w * (n / w) + (n % w + k) := by
    have := Nat.div_add_mod n w
    omega
  constructor
  · conv_lhs => rw [hn, Nat.mul_add_div hw]
  · conv_lhs => rw [hn, Nat.mul_add_mod]

theorem advance_behind {k : ℕ} (hpos : 0 < k) (hw : 0 < f.width)
    (hfit : n % f.width + k ≤ f.width) (hrow : s.row = top + n / f.width)
    (hcolumn : s.column = n % f.width) (hpending : s.pending = false) :
    (s.advance f k).Behind f top (n + k) := by
  obtain ⟨hdiv, hmod⟩ := add_div_mod (n := n) (k := k) hw
  unfold Screen.advance Screen.Behind
  rw [hdiv, hmod, hcolumn]
  by_cases hlt : n % f.width + k < f.width
  · rw [if_pos hlt, Nat.div_eq_of_lt hlt, Nat.mod_eq_of_lt hlt, if_neg (by omega)]
    exact ⟨hrow, rfl, hpending⟩
  · have hfull : n % f.width + k = f.width := by omega
    rw [if_neg hlt, hfull, Nat.div_self hw, Nat.mod_self, if_pos ⟨rfl, by omega⟩]
    exact ⟨by rw [hrow]; ring, rfl, rfl⟩

theorem layout_append (gs hs : List (List UInt8)) :
    layout f (gs ++ hs) = layout f gs ++ layout f hs :=
  List.flatMap_append

theorem layout_length {gs : List (List UInt8)} (h : ∀ g ∈ gs, 0 < f.cells g) :
    (layout f gs).length = breadth f gs := by
  induction gs with
  | nil => rfl
  | cons g gs ih =>
    have hg := h g List.mem_cons_self
    have hrest := ih fun x hx => h x (List.mem_cons_of_mem g hx)
    simp only [layout, List.flatMap_cons, List.length_append, List.length_cons,
      List.length_replicate] at hrest ⊢
    rw [hrest, breadth, breadth, List.map_cons, List.sum_cons]
    omega

theorem layout_singleton (hpos : 0 < f.cells g) (i : ℕ) : (layout f [g])[i]?.getD .blank =
    if i = 0 then .glyph g else if i < f.cells g then .rest else .blank := by
  rw [layout, List.flatMap_singleton]
  cases i with
  | zero => rfl
  | succ i =>
    rw [List.getElem?_cons_succ, List.getElem?_replicate, if_neg (Nat.succ_ne_zero i)]
    by_cases hi : i < f.cells g - 1
    · rw [if_pos hi, if_pos (by omega)]
      rfl
    · rw [if_neg hi, if_neg (by omega)]
      rfl

theorem layout_concat (hlength : (layout f gs).length = n) (hpos : 0 < f.cells g) (k : ℕ) :
    (layout f (gs ++ [g]))[k]?.getD .blank =
      if k < n then (layout f gs)[k]?.getD .blank
      else if k = n then .glyph g else if k < n + f.cells g then .rest else .blank := by
  rw [layout_append, List.getElem?_append, hlength]
  split
  · rfl
  · rw [layout_singleton hpos]
    congr 1
    · rw [Nat.sub_eq_zero_iff_le, eq_iff_iff]
      omega
    · congr 1
      rw [eq_iff_iff]
      omega

theorem shows_write (hshows : s.Shows f top gs) (hlength : (layout f gs).length = n)
    (hpos : 0 < f.cells g) (hfit : n % f.width + f.cells g ≤ f.width)
    (hrow : s.row = top + n / f.width) (hcolumn : s.column = n % f.width) :
    (s.write (f.cells g) g).Shows f top (gs ++ [g]) := by
  intro r c hc
  have hn := Nat.div_add_mod' n f.width
  rw [layout_concat hlength hpos, Screen.write]
  dsimp only
  rw [hrow, hcolumn, hshows r c hc]
  have hbeyond (k : ℕ) (hk : n ≤ k) : (layout f gs)[k]?.getD .blank = .blank := by
    rw [List.getElem?_eq_none (by omega), Option.getD_none]
  rcases lt_trichotomy r (n / f.width) with hr | hr | hr
  · -- a row above
    have hrows := Nat.mul_le_mul_right f.width (Nat.succ_le_of_lt hr)
    rw [Nat.succ_mul] at hrows
    rw [if_neg (by omega), if_neg (by omega), if_pos (by omega)]
  · subst hr
    rcases lt_trichotomy c (n % f.width) with hc' | hc' | hc'
    · rw [if_neg (by omega), if_neg (by omega), if_pos (by omega)]
    · rw [if_pos (by omega), if_neg (by omega), if_pos (by omega)]
    · by_cases hrest : c < n % f.width + f.cells g
      · rw [if_neg (by omega), if_pos (by omega), if_neg (by omega), if_neg (by omega),
          if_pos (by omega)]
      · rw [if_neg (by omega), if_neg (by omega), if_neg (by omega), if_neg (by omega),
          if_neg (by omega), hbeyond _ (by omega)]
  · -- a row below
    have hrows := Nat.mul_le_mul_right f.width (Nat.succ_le_of_lt hr)
    rw [Nat.succ_mul] at hrows
    rw [if_neg (by omega), if_neg (by omega), if_neg (by omega), if_neg (by omega),
      if_neg (by omega), hbeyond _ (by omega)]

theorem put_spec (hw : 0 < f.width) (hshows : s.Shows f top gs) (hlength : (layout f gs).length = n)
    (hn : s.Behind f top n) (hpos : 0 < f.cells g) (hfit : n % f.width + f.cells g ≤ f.width)
    (hroom : top + n / f.width < f.height) :
    (s.put f g).Shows f top (gs ++ [g]) ∧ (s.put f g).Behind f top (n + f.cells g) ∧
      SameAbove top s (s.put f g) := by
  rw [put_eq hn hfit hroom]
  have hwritten := shows_write (g := g)
    (s := { s with row := top + n / f.width, column := n % f.width, pending := false })
    hshows hlength hpos hfit rfl rfl
  have hcell (t : Screen) : (t.advance f (f.cells g)).cell = t.cell := by
    rw [Screen.advance]
    split <;> rfl
  refine ⟨?_, advance_behind hpos hw hfit rfl rfl rfl, ?_⟩
  · intro r c hc
    rw [hcell]
    exact hwritten r c hc
  · intro r hr c
    have hbelow := Nat.le_add_right top (n / f.width)
    rw [hcell, Screen.write]
    dsimp only
    rw [if_neg (by omega), if_neg (by omega)]

theorem draw_spec (hw : 0 < f.width) {new : List (List UInt8)} (hshows : s.Shows f top gs)
    (hlength : (layout f gs).length = n) (hn : s.Behind f top n) (hfits : Fits f n new)
    (hroom : top + (n + breadth f new + f.width - 1) / f.width ≤ f.height) :
    (new.foldl (Screen.put f) s).Shows f top (gs ++ new) ∧
      (new.foldl (Screen.put f) s).Behind f top (n + breadth f new) ∧
      SameAbove top s (new.foldl (Screen.put f) s) := by
  induction new generalizing s gs n with
  | nil =>
    rw [List.append_nil]
    exact ⟨hshows, hn, fun _ _ _ => rfl⟩
  | cons g new ih =>
    obtain ⟨hpos, hfit, hrest⟩ := hfits
    have hbreadth : breadth f (g :: new) = f.cells g + breadth f new := List.sum_cons
    have hrow : top + n / f.width < f.height := by
      have hlt : n / f.width < (n + breadth f (g :: new) + f.width - 1) / f.width := by
        rw [Nat.lt_iff_add_one_le, Nat.le_div_iff_mul_le hw, Nat.add_one_mul]
        have := Nat.div_mul_le_self n f.width
        omega
      omega
    obtain ⟨hshows', hbehind', habove'⟩ := put_spec hw hshows hlength hn hpos hfit hrow
    have hlength' : (layout f (gs ++ [g])).length = n + f.cells g := by
      rw [layout_append, List.length_append, hlength, layout_length (by simpa using hpos)]
      simp [breadth]
    rw [hbreadth, ← Nat.add_assoc] at hroom ⊢
    obtain ⟨hshows'', hbehind'', habove''⟩ := ih hshows' hlength' hbehind' hrest hroom
    rw [List.append_assoc, List.singleton_append] at hshows''
    exact ⟨hshows'', hbehind'', habove'.trans habove''⟩

end Terminal
