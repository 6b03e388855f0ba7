import Parcel.FlushDisplay

/-!
# The screen shows the text

After every operation of the editor the terminal shows the prompt and the text, the
cursor is at its place in it, and nothing above the prompt has changed. That takes a
prompt that ends inside a row, room below it, and characters that the terminal draws as
wide as the editor counts them.
-/

namespace Parcel
open BoundedReads Faulting Utf8Encoding TextZipper Terminal

/-- The terminal draws the character, and as wide as the editor counts it. -/
structure Printable (f : Format) (c : Char) : Prop where
  space_le : 0x20 ≤ c.toNat
  ne_delete : c.toNat ≠ 0x7f
  cells_eq : f.cells (encodeChar c) = cpRenderedWidth c.toNat

def glyphs (cs : List Char) : List (List UInt8) := cs.map encodeChar

variable {f : Format}

theorem long_lead : ∀ n < 256, announced (UInt8.ofNat n) ≠ 1 → 0x80 ≤ n := by decide +kernel

theorem Printable.draws {c : Char} (h : Printable f c) : Draws f (encodeChar c) [encodeChar c] := by
  obtain ⟨lead, tail, hbytes, hwf⟩ := exists_wellFormed c
  have hlead : 0x20 ≤ lead ∧ lead ≠ 0x7f := by
    rw [UInt8.le_iff_toNat_le, ne_eq, ← UInt8.toNat_inj]
    show 32 ≤ lead.toNat ∧ ¬lead.toNat = 127
    have hspace := h.space_le
    have hdelete := h.ne_delete
    by_cases hascii : c.toNat < 128
    · rw [encodeChar_of_lt hascii] at hbytes
      rw [← (List.cons.inj hbytes).1, UInt8.toNat_ofNat', Nat.mod_eq_of_lt (by omega)]
      exact ⟨hspace, hdelete⟩
    · -- the lead byte announces more bytes
      have hsize : c.utf8Size ≠ 1 := by
        rw [ne_eq, Char.utf8Size_eq_one_iff, UInt32.le_iff_toNat_le]
        exact fun hle => hascii (Nat.lt_succ_of_le hle)
      have hannounced : announced lead ≠ 1 := by
        rwa [hwf.announced_eq, ← List.length_cons, ← hbytes, encodeChar,
          String.length_utf8EncodeChar]
      have hlong := long_lead lead.toNat lead.toNat_lt
      rw [UInt8.ofNat_toNat] at hlong
      have := hlong hannounced
      omega
  rw [hbytes]
  exact draws_glyph hwf hlead.1 hlead.2

theorem draws_encode {cs : List Char} (h : ∀ c ∈ cs, Printable f c) :
    Draws f (encode cs) (glyphs cs) := by
  induction cs with
  | nil => exact draws_nil
  | cons c cs ih =>
    exact (h c List.mem_cons_self).draws.append (ih fun x hx => h x (List.mem_cons_of_mem c hx))

theorem breadth_glyphs {cs : List Char} (h : ∀ c ∈ cs, Printable f c) :
    Terminal.breadth f (glyphs cs) = cells cs := by
  unfold Terminal.breadth glyphs cells
  rw [List.map_map]
  exact congrArg List.sum (List.map_congr_left fun c hc => (h c hc).cells_eq)

theorem breadth_text (prompt : List (List UInt8)) {cs : List Char} (h : ∀ c ∈ cs, Printable f c) :
    Terminal.breadth f (prompt ++ glyphs cs) = Terminal.breadth f prompt + cells cs := by
  rw [Terminal.breadth, List.map_append, List.sum_append, ← Terminal.breadth, ← Terminal.breadth,
    breadth_glyphs h]

theorem rows_of_full {n w : ℕ} (hw : 0 < w) (hn : n % w = 0) : (n + w - 1) / w = n / w := by
  have hdiv := Nat.div_add_mod n w
  have hsum : n + w - 1 = w * (n / w) + (w - 1) := by omega
  have hrest : (w - 1) / w = 0 := Nat.div_eq_of_lt (by omega)
  rw [hsum, Nat.mul_add_div hw, hrest, add_zero]

theorem rows_of_partial {n w : ℕ} (hw : 0 < w) (hn : n % w ≠ 0) : (n + w - 1) / w = n / w + 1 := by
  have hdiv := Nat.div_add_mod n w
  have hlt := Nat.mod_lt n hw
  have hsum : n + w - 1 = w * (n / w + 1) + (n % w - 1) := by
    rw [Nat.mul_add_one]
    omega
  have hrest : (n % w - 1) / w = 0 := Nat.div_eq_of_lt (by omega)
  rw [hsum, Nat.mul_add_div hw, hrest, add_zero]

theorem behind_row {s : Screen} {top n : ℕ} (hw : 0 < f.width) (hn : n ≠ 0)
    (h : s.Behind f top n) : s.row + 1 = top + (n + f.width - 1) / f.width := by
  unfold Screen.Behind at h
  by_cases hfull : n % f.width = 0
  · rw [if_pos ⟨hfull, hn⟩] at h
    rw [h.1, rows_of_full hw hfull]
  · rw [if_neg fun hand => hfull hand.1] at h
    rw [h.1, rows_of_partial hw hfull, Nat.add_assoc]

namespace Line

variable {m : Line} {z : Zipper Char}

theorem Refines.column_of_atEol (h : m.Refines z) (heol : m.atEol = true) :
    m.cursor.column = m.lineLen := by
  have hend : m.cursor.offset = m.lineSize := by
    rw [atEol, decide_eq_true_eq] at heol
    exact heol.2
  have hoffset := h.spells.offset_add
  have hlength := length_le_spell z.right
  have hright : z.right = [] := List.length_eq_zero_iff.mp (by omega)
  rw [h.column, h.len, Zipper.text, hright, List.append_nil]

structure Ready (f : Format) (top : ℕ) (m : Line) (s : Screen) : Prop where
  row : s.row = top + (m.promptLen + m.cursor.renderedColumn) / f.width
  pending : s.pending = false
  below : ∀ r c, m.usedRows ≤ r → c < f.width → s.cell (top + r) c = .blank

theorem cleared_shows {s : Screen} {top used : ℕ}
    (hbelow : ∀ r c, used ≤ r → c < f.width → s.cell (top + r) c = .blank) :
    (cleared s top (used - 1)).Shows f top [] := by
  intro r c hc
  show (if top ≤ top + r ∧ top + r ≤ top + (used - 1) then Cell.blank else s.cell (top + r) c) =
    Cell.blank
  split
  · rfl
  · exact hbelow r c (by omega) hc

section

variable {top : ℕ} {s : Screen} (hw : 0 < f.width)
include hw

theorem display_drawn {down used n : ℕ} {bytes : List UInt8} {glyphs : List (List UInt8)}
    (hdraws : Draws f bytes glyphs) (hbreadth : Terminal.breadth f glyphs = n)
    (hfits : Fits f 0 glyphs) (hdown : down < 100000) (hpos : 1 ≤ used)
    (hrow : s.row + down = top + (used - 1)) (hpending : s.pending = false)
    (hbelow : ∀ r c, used ≤ r → c < f.width → s.cell (top + r) c = .blank)
    (hused : top + used ≤ f.height) (hroom : top + (n + f.width - 1) / f.width ≤ f.height) :
    ∃ s', display f (s, .ground) (moveBytes 1 down ++
        ((List.replicate (used - 1) (clearRow ++ rowUp)).flatten ++ clearRow) ++ bytes) =
          (s', .ground) ∧
      s'.Shows f top glyphs ∧ s'.Behind f top n ∧ SameAbove top s s' := by
  have hmoved := display_down (f := f) hdown hpending (by omega)
  rw [hrow] at hmoved
  have hcleared := display_clear (f := f) (s := { s with row := top + (used - 1) }) top (used - 1)
    rfl
  have hblank := cleared_shows (s := { s with row := top + (used - 1) }) (f := f) hbelow
  have hstart : (cleared { s with row := top + (used - 1) } top (used - 1)).Behind f top 0 := by
    rw [Screen.Behind, if_neg (by simp), Nat.zero_div, Nat.zero_mod]
    exact ⟨rfl, rfl, rfl⟩
  rw [← hbreadth, ← Nat.zero_add (Terminal.breadth f glyphs)] at hroom
  have hnone : (layout f []).length = 0 := rfl
  obtain ⟨hshows, hbehind, habove⟩ := draw_spec hw hblank hnone hstart hfits hroom
  rw [Nat.zero_add, hbreadth] at hbehind
  refine ⟨_, ?_, hshows, hbehind, SameAbove.trans ?_ habove⟩
  · rw [display_append, display_append, hmoved, hcleared, hdraws]
  · intro r hr c
    rw [cleared]
    dsimp only
    rw [if_neg (by omega)]

theorem display_newline (hpos : m.promptLen + m.lineLen ≠ 0)
    (hrows : m.textRows = (m.promptLen + m.lineLen + f.width - 1) / f.width)
    (hbehind : s.Behind f top (m.promptLen + m.lineLen)) (hroom : top + m.rowsBelow ≤ f.height) :
    ∃ s', display f (s, .ground) m.newlineBytes = (s', .ground) ∧ s'.cell = s.cell ∧
      s'.row + 1 = top + m.rowsBelow := by
  have hrow := behind_row hw hpos hbehind
  rw [← hrows] at hrow
  unfold newlineBytes
  rw [rowsBelow] at hroom ⊢
  split
  · rename_i hwrapped
    rw [if_pos hwrapped] at hroom
    refine ⟨(s.lineFeed f).carriageReturn, rfl, ?_, ?_⟩
    · rw [Screen.lineFeed, if_pos (by omega)]
      rfl
    · rw [Screen.lineFeed, if_pos (by omega)]
      show s.row + 1 + 1 = _
      omega
  · exact ⟨s, rfl, rfl, hrow⟩

theorem display_flushBytes (h : m.Refines z) (hdefined : m.FlushDefined)
    (hwidth : m.consoleWidth = f.width) (hw' : f.width < 100000) (hheight : f.height < 100000)
    (hready : m.Ready f top s) {prompt : List (List UInt8)} (hprompt : Draws f m.prompt prompt)
    (hlen : Terminal.breadth f prompt = m.promptLen) (hpos : m.promptLen ≠ 0)
    (hsmall : m.promptLen + m.lineLen + f.width < 2 ^ 64)
    (hprint : ∀ c ∈ z.text, Printable f c) (hfits : Fits f 0 (prompt ++ glyphs z.text))
    (hused : top + m.usedRows ≤ f.height) (hbelow : top + m.rowsBelow ≤ f.height) :
    ∃ s', display f (s, .ground) m.flushBytes = (s', .ground) ∧
      s'.Shows f top (prompt ++ glyphs z.text) ∧
      s'.row = top + (m.promptLen + m.cursor.column) / f.width ∧ s'.column = m.columns ∧
      s'.pending = false ∧ SameAbove top s s' := by
  have hdown := hdefined.down
  have hclear := hdefined.clear
  have hup := hdefined.up
  rw [updateRowCount_eq] at hdown hclear
  change m.rowsTo m.cursor.renderedColumn ≤ m.usedRows at hdown
  change 1 ≤ m.usedRows at hclear
  -- the row counts of the line, in rows of the screen
  have hrendered : m.rowsTo m.cursor.renderedColumn =
      (m.promptLen + m.cursor.renderedColumn) / f.width + 1 := by
    rw [rowsTo_eq (hwidth ▸ hw), hwidth]
  have hcolumn : m.rowsTo m.cursor.column = (m.promptLen + m.cursor.column) / f.width + 1 := by
    rw [rowsTo_eq (hwidth ▸ hw), hwidth]
  have hrows : m.textRows = (m.promptLen + m.lineLen + f.width - 1) / f.width := by
    rw [textRows_eq (hwidth ▸ hw) (hwidth ▸ hsmall), hwidth]
  have hbreadth : Terminal.breadth f (prompt ++ glyphs z.text) = m.promptLen + m.lineLen := by
    rw [breadth_text _ hprint, hlen, h.len]
  have hlast : s.row + (m.usedRows - m.rowsTo m.cursor.renderedColumn) =
    top + (m.usedRows - 1) := by
    rw [hready.row, hrendered]
    omega
  have hroom : top + (m.promptLen + m.lineLen + f.width - 1) / f.width ≤ f.height := by
    rw [← hrows]
    exact (Nat.add_le_add_left (le_max_right _ _) top).trans hused
  have htext : m.line.take m.lineSize = encode z.text := h.bytes
  -- down to the last row, up and clearing row by row, then the text
  obtain ⟨s₁, hdrawn, hshows, hbehind, habove⟩ := display_drawn hw
    (hprompt.append (draws_encode hprint)) hbreadth hfits (by omega) hclear hlast hready.pending
    hready.below hused hroom
  -- a line that fills its row needs one more
  obtain ⟨s₂, hnewline, hcell, hrow⟩ := display_newline hw (by omega) hrows hbehind hbelow
  have hfront := (display_append (f := f) (s, Reading.ground) _ m.newlineBytes).trans
    ((congrArg (display f · m.newlineBytes) hdrawn).trans hnewline)
  have hright : m.columns < f.width := hwidth ▸ Nat.mod_lt _ (hwidth ▸ hw)
  -- and back to the row and column of the cursor
  have hplaced := display_place (f := f) (s := s₂)
    (show m.rowsBelow - m.rowsTo m.cursor.column < 100000 by omega) (hright.trans hw') hright
  refine ⟨{ s₂ with
      row := s₂.row - (m.rowsBelow - m.rowsTo m.cursor.column)
      column := m.columns
      pending := false }, ?_, ?_, ?_, rfl, rfl, ?_⟩
  · rw [flushBytes, htext, List.append_assoc _ m.prompt, display_append, hfront]
    exact hplaced
  · intro r c hc
    show s₂.cell (top + r) c = _
    rw [hcell]
    exact hshows r c hc
  · rw [hcolumn] at hup ⊢
    generalize (m.promptLen + m.cursor.column) / f.width = row at hup ⊢
    show s₂.row - (m.rowsBelow - (row + 1)) = top + row
    omega
  · intro r hr c
    show s₂.cell r c = _
    rw [hcell]
    exact habove r hr c

end

/-- The prompt and what has been sent are handed on as they are. -/
def Keeps (l : Line) (o : Option Line) : Prop :=
  ∀ m, o = some m → m.prompt = l.prompt ∧ m.terminal = l.terminal

theorem keeps_some {l m : Line} (hprompt : m.prompt = l.prompt)
    (hterminal : m.terminal = l.terminal) : l.Keeps (some m) := by
  intro m' hm'
  rw [← Option.some.inj hm']
  exact ⟨hprompt, hterminal⟩

theorem shrinkLine_keeps {l m : Line} (hprompt : m.prompt = l.prompt)
    (hterminal : m.terminal = l.terminal) (cp : Codepoint) :
    Ends l.Keeps (fun _ => True) (m.shrinkLine cp) :=
  (Ends.trivial _).bind fun _ _ => (Ends.trivial _).bind fun _ _ =>
    (Ends.trivial _).bind fun _ _ => keeps_some hprompt hterminal

theorem deleteLine_keeps (l : Line) (del : Bool) :
    Ends l.Keeps (fun _ => True) (l.deleteLine del) := by
  unfold deleteLine
  split
  · refine (Ends.trivial _).bind fun _ _ => (Ends.trivial _).bind fun _ _ => ?_
    refine (Ends.trivial _).bind fun _ _ => (Ends.trivial _).bind fun _ _ => ?_
    exact (Ends.trivial _).bind fun _ _ => shrinkLine_keeps rfl rfl _
  · split
    · refine (Ends.trivial _).bind fun _ _ => (Ends.trivial _).bind fun _ _ => ?_
      refine (Ends.trivial _).bind fun _ _ => (Ends.trivial _).bind fun _ _ => ?_
      exact shrinkLine_keeps rfl rfl _
    · intro m hm
      exact absurd hm (Option.some_ne_none m).symm

theorem insertLine_keeps (l : Line) (c : List UInt8) (len : ℕ) :
    Ends l.Keeps (fun _ => True) (l.insertLine c len) := by
  unfold insertLine
  refine (Ends.trivial _).bind fun cpLen _ => ?_
  split
  · intro m hm
    exact absurd hm (Option.some_ne_none m).symm
  · exact (Ends.trivial _).bind fun _ _ => keeps_some rfl rfl

theorem handed_keeps {l : Line} (h : l.Refines z) (op : Operation) :
    Ends l.Keeps (fun _ => True) (op.handed l) := by
  cases op with
  | insertChar c => exact insertLine_keeps l _ _
  | deleteChar del => exact deleteLine_keeps l del
  | updateCursorPos d =>
    have hmove := moveCursor_spec h.spells h.nonNul_lead d
    rw [Operation.handed]
    cases hm : l.moveCursor d with
    | error e => trivial
    | ok m =>
      obtain ⟨-, offset, column, rfl⟩ := hmove.of_ok hm
      exact keeps_some rfl rfl

/-! ## Runs -/

/-- What a run does not change: a prompt of some glyphs that ends inside a row. -/
structure Console (f : Format) (prompt : List (List UInt8)) (l : Line) : Prop where
  draws : Draws f l.prompt prompt
  breadth : Terminal.breadth f prompt = l.promptLen
  inside : l.promptLen % f.width ≠ 0
  width_eq : l.consoleWidth = f.width
  width_pos : 0 < f.width
  width_lt : f.width < 2 ^ 16
  height_lt : f.height < 2 ^ 16

/-- The text fits below the row, with a row for the cursor behind it. -/
structure Roomy (f : Format) (top : ℕ) (prompt : List (List UInt8)) (cs : List Char) : Prop where
  fits : Fits f 0 (prompt ++ glyphs cs)
  rows : top + ((Terminal.breadth f prompt + cells cs) / f.width + 1) ≤ f.height

/-- The screen `s` shows the line, after what has been sent to the screen `s₀`. -/
structure OnDisplay (f : Format) (top : ℕ) (prompt : List (List UInt8)) (s₀ : Screen) (l : Line)
    (z : Zipper Char) (s : Screen) : Prop where
  display : Terminal.display f (s₀, .ground) l.terminal = (s, .ground)
  shows : s.Shows f top (prompt ++ glyphs z.text)
  above : SameAbove top s₀ s
  row : s.row = top + (l.promptLen + l.cursor.column) / f.width
  column : s.column = l.columns
  pending : s.pending = false
  rendered : l.cursor.renderedColumn = l.cursor.column
  length : (layout f (prompt ++ glyphs z.text)).length = l.promptLen + l.lineLen
  /-- The rows with text have been counted, or are those of the prompt. -/
  counted : l.promptLen + l.lineLen ≤
    max l.cursor.row ((l.promptLen + f.width - 1) / f.width) * f.width
  height : top + l.cursor.row ≤ f.height
  placed : l.Placed

variable {top : ℕ} {prompt : List (List UInt8)} {s₀ s : Screen} {l : Line}

theorem rows_lt {n w h : ℕ} (hw : 0 < w) (hw' : w < 2 ^ 16) (hh : h < 2 ^ 16)
    (hrows : top + (n / w + 1) ≤ h) :
    n + w < 2 ^ 64 ∧ (n + w - 1) / w ≤ n / w + 1 := by
  constructor
  · have hlt : n < 2 ^ 16 * w := (Nat.div_lt_iff_lt_mul hw).mp (by omega)
    have := Nat.mul_lt_mul_of_pos_left hw' (show 0 < 2 ^ 16 by decide)
    omega
  · rw [← Nat.add_div_right n hw]
    exact Nat.div_le_div_right (Nat.sub_le _ _)

theorem le_rows_mul {w : ℕ} (hw : 0 < w) (n : ℕ) : n ≤ (n + w - 1) / w * w := by
  have hdiv := Nat.div_add_mod' (n + w - 1) w
  have hlt := Nat.mod_lt (n + w - 1) hw
  omega

theorem OnDisplay.below {l m : Line} {z : Zipper Char} (hl : OnDisplay f top prompt s₀ l z s)
    (hrow : m.cursor.row = l.cursor.row)
    (hrows : (l.promptLen + f.width - 1) / f.width ≤ m.textRows) :
    ∀ r c, m.usedRows ≤ r → c < f.width → s.cell (top + r) c = .blank := by
  intro r c hr hc
  have hused : max l.cursor.row ((l.promptLen + f.width - 1) / f.width) ≤ m.usedRows := by
    rw [usedRows, hrow]
    exact max_le_max le_rfl hrows
  have hcounted := hl.counted.trans (Nat.mul_le_mul_right f.width (hused.trans hr))
  rw [hl.shows r c hc, List.getElem?_eq_none, Option.getD_none]
  rw [hl.length]
  omega

theorem OnDisplay.flush {m : Line} {z z' : Zipper Char} (hl : OnDisplay f top prompt s₀ l z s)
    (hconsole : l.Console f prompt) (hm : m.Refines z') (hsame : l.SameScreen m)
    (hprompt : m.prompt = l.prompt) (hterminal : m.terminal = l.terminal)
    (hprint : ∀ c ∈ z'.text, Printable f c) (hroom : Roomy f top prompt z'.text) :
    ∃ l' s', m.flushConsole = .ok l' ∧ l'.Refines z' ∧ l'.Console f prompt ∧ l.SameMemory l' ∧
      OnDisplay f top prompt s₀ l' z' s' := by
  obtain ⟨hdraws, hbreadth, hinside, hwidth, hw, hw', hh⟩ := hconsole
  have hrows := hroom.rows
  rw [hbreadth, ← hm.len] at hrows
  obtain ⟨hsmall, hceil⟩ := rows_lt hw hw' hh hrows
  rw [← hsame.promptLen_eq] at hbreadth hinside hrows hsmall hceil
  rw [← hsame.width_eq] at hwidth
  have hwm : 0 < m.consoleWidth := hwidth ▸ hw
  have hsmall' : m.promptLen + m.lineLen + m.consoleWidth < 2 ^ 64 := by rwa [hwidth]
  -- the operation left the rows that were drawn as they are
  have hplaced : m.Placed := by
    unfold Placed
    rw [hsame.promptLen_eq, hsame.rendered_eq, hsame.width_eq, hsame.row_eq]
    exact hl.placed
  have hdefined := flushDefined_of_row hm hwm hsmall' hplaced (Or.inl (hwidth ▸ hinside))
  have htext := textRows_eq hwm hsmall'
  rw [hwidth] at htext
  have hrow := hl.height
  rw [← hsame.row_eq] at hrow
  have hused : top + m.usedRows ≤ f.height := by
    rw [usedRows, htext]
    omega
  -- a full row at the end of the line takes one row below the text
  have hbelow : m.rowsBelow ≤ (m.promptLen + m.lineLen) / f.width + 1 := by
    rw [rowsBelow]
    split
    · rename_i hwrapped
      have hfull := hwrapped.2
      rw [columns, hm.column_of_atEol hwrapped.1, hwidth] at hfull
      rw [htext, rows_of_full hw hfull]
    · rwa [htext]
  have hbound : 99999 < 100000 := by decide
  have hflush := hdefined.flushConsole_bytes hm.spells.size_le hwm (by omega) hbound (by omega)
    (by omega)
  -- the row that was drawn is the one that the cursor is on
  have hready : m.Ready f top s := by
    refine ⟨?_, hl.pending, hl.below hsame.row_eq ?_⟩
    · rw [hsame.promptLen_eq, hsame.rendered_eq, hl.rendered]
      exact hl.row
    · rw [htext, hsame.promptLen_eq]
      exact Nat.div_le_div_right (by omega)
  obtain ⟨s', hs', hshows, hrow', hcolumn, hpending, habove⟩ := display_flushBytes hw hm hdefined
    hwidth (by omega) (by omega) hready (hprompt ▸ hdraws) hbreadth
    (fun hzero => hinside (by rw [hzero, Nat.zero_mod])) (by omega) hprint hroom.fits hused
    (by omega)
  refine ⟨_, s', hflush, hm.redrawn ⟨_, _, _, rfl⟩, ?_, ⟨hsame.length_eq, hsame.before_eq⟩, ?_⟩
  · exact ⟨hprompt ▸ hdraws, hbreadth, hinside, hwidth, hw, hw', hh⟩
  · refine ⟨?_, hshows, hl.above.trans habove, hrow', hcolumn, hpending, rfl, ?_, ?_, ?_, ?_⟩
    · show Terminal.display f (s₀, .ground) (m.terminal ++ m.flushBytes) = _
      rw [hterminal, display_append, hl.display, hs']
    · show _ = m.promptLen + m.lineLen
      rw [layout_length hroom.fits.pos, breadth_text _ hprint, hbreadth, hm.len]
    · show m.promptLen + m.lineLen ≤ _
      refine le_trans ?_ (Nat.mul_le_mul_right f.width (le_max_left _ _))
      refine le_trans ?_ (Nat.mul_le_mul_right f.width (le_max_left _ _))
      refine le_trans ?_ (Nat.mul_le_mul_right f.width (le_max_right _ _))
      rw [htext]
      exact le_rows_mul hw _
    · show top + max m.usedRows m.rowsBelow ≤ f.height
      omega
    · exact hdefined.placed hwm hflush

theorem forall_mem_edit {p : Char → Prop} {z : Zipper Char} (h : ∀ c ∈ z.text, p c)
    {op : Operation} (hop : ∀ c, op = .insertChar c → p c) :
    ∀ c ∈ (z.edit isSpace op.edit).text, p c := by
  by_cases hinsert : ∃ c, op = .insertChar c
  · obtain ⟨c, rfl⟩ := hinsert
    exact Zipper.forall_mem_insert h (hop c rfl)
  · have hedit : ∀ a, op.edit ≠ .insert a := by
      intro a ha
      cases op with
      | insertChar c => exact hinsert ⟨c, rfl⟩
      | deleteChar del => cases del <;> cases ha
      | updateCursorPos d => cases d <;> cases ha
    exact fun c hc => h c ((Zipper.edit_sublist isSpace z hedit).subset hc)

theorem OnDisplay.apply {z : Zipper Char} (hl : OnDisplay f top prompt s₀ l z s)
    (h : l.Refines z) (hconsole : l.Console f prompt) (op : Operation) (hop : op.NonNul)
    (hfit : l.lineSize + op.added + 1 ≤ l.line.length)
    (hprint : ∀ c ∈ (z.edit isSpace op.edit).text, Printable f c)
    (hroom : Roomy f top prompt (z.edit isSpace op.edit).text) :
    Ends (fun l' => ∃ s', l'.Refines (z.edit isSpace op.edit) ∧ l'.Console f prompt ∧
        l.SameMemory l' ∧ OnDisplay f top prompt s₀ l' (z.edit isSpace op.edit) s')
      l.ScansThrough (op.apply l) := by
  have hends := handed_ends h op hop
  have hkeeps := handed_keeps h op
  rw [Operation.apply_eq_redraw]
  cases hx : op.handed l with
  | error e =>
    refine (hends.of_error hx).resolve_right fun hfull => ?_
    exact not_le.mpr hfull.1 hfit
  | ok o =>
    rcases hends.of_ok hx with ⟨rfl, hz⟩ | ⟨m, rfl, hm, hsame⟩
    · rw [hz]
      exact ⟨s, h, hconsole, ⟨rfl, rfl⟩, hl⟩
    · obtain ⟨hprompt, hterminal⟩ := hkeeps.of_ok hx m rfl
      obtain ⟨l', s', hflush, hl'⟩ := hl.flush hconsole hm hsame hprompt hterminal hprint hroom
      change Ends _ _ m.flushConsole
      rw [hflush]
      exact ⟨s', hl'⟩

theorem OnDisplay.run {z : Zipper Char} (hl : OnDisplay f top prompt s₀ l z s)
    (h : l.Refines z) (hconsole : l.Console f prompt) {ops : List Operation}
    (hops : ∀ op ∈ ops, op.NonNul) (hfit : l.lineSize + room ops + 1 ≤ l.line.length)
    (hprint : ∀ c ∈ z.text, Printable f c)
    (hinserted : ∀ c, Operation.insertChar c ∈ ops → Printable f c)
    (hroom : ∀ es, es <+: ops → Roomy f top prompt (z.run isSpace (es.map Operation.edit)).text) :
    Ends (fun l' => l'.Refines (z.run isSpace (ops.map Operation.edit)) ∧ l'.Console f prompt ∧
        ∃ s', OnDisplay f top prompt s₀ l' (z.run isSpace (ops.map Operation.edit)) s')
      l.ScansThrough (l.run ops) := by
  induction ops generalizing l z s with
  | nil => exact ⟨h, hconsole, s, hl⟩
  | cons op ops ih =>
    have hroom' : room (op :: ops) = op.added + room ops := rfl
    have hprint' : ∀ c ∈ (z.edit isSpace op.edit).text, Printable f c :=
      forall_mem_edit hprint fun c hc => hinserted c (hc ▸ List.mem_cons_self)
    refine (hl.apply h hconsole op (hops op List.mem_cons_self) (by omega) hprint'
      (hroom [op] ⟨ops, rfl⟩)).bind ?_
    rintro l' ⟨s', hl', hconsole', ⟨hlen, hbefore⟩, hs'⟩
    have hsize := added_edit z op
    rw [← hl'.size, ← h.size] at hsize
    have hrest := ih hs' hl' hconsole' (fun o ho => hops o (List.mem_cons_of_mem op ho))
      (by omega) hprint' (fun c hc => hinserted c (List.mem_cons_of_mem op hc))
      fun es hes => hroom (op :: es) (List.cons_prefix_cons.mpr ⟨rfl, hes⟩)
    refine hrest.mono (fun _ => id) ?_
    rintro e ⟨he, hall⟩
    exact ⟨he, hbefore ▸ hall⟩

theorem start_onDisplay {bytes before line : List UInt8}
    (hconsole : (start bytes (Terminal.breadth f prompt) before line f.width).Console f prompt)
    (hroom : Roomy f s₀.row prompt []) (hcolumn : s₀.column = 0) (hpending : s₀.pending = false)
    (hblank : ∀ r c, s₀.row ≤ r → s₀.cell r c = .blank) :
    ∃ s, Terminal.display f (s₀, .ground) bytes = (s, .ground) ∧ SameAbove s₀.row s₀ s ∧
      OnDisplay f s₀.row prompt s (start bytes (Terminal.breadth f prompt) before line f.width)
        Zipper.empty s := by
  obtain ⟨hdraws, -, hinside, -, hw, hw', hh⟩ := hconsole
  change Draws f bytes prompt at hdraws
  change Terminal.breadth f prompt % f.width ≠ 0 at hinside
  have hfits := hroom.fits
  have hrows := hroom.rows
  rw [glyphs, List.map_nil, List.append_nil] at hfits
  rw [cells_nil, add_zero] at hrows
  obtain ⟨-, hceil⟩ := rows_lt hw hw' hh hrows
  have hempty : s₀.Shows f s₀.row [] := fun r c _ => hblank _ c (Nat.le_add_right _ _)
  have hstart : s₀.Behind f s₀.row 0 := by
    rw [Screen.Behind, if_neg (by simp), Nat.zero_div, Nat.zero_mod]
    exact ⟨rfl, hcolumn, hpending⟩
  have hnone : (layout f []).length = 0 := rfl
  rw [← Nat.zero_add (Terminal.breadth f prompt)] at hceil hrows
  obtain ⟨hshows, hbehind, habove⟩ := draw_spec hw hempty hnone hstart hfits (by omega)
  rw [Nat.zero_add, Screen.Behind, if_neg fun hand => hinside hand.1] at hbehind
  obtain ⟨hrow, hcol, hpend⟩ := hbehind
  refine ⟨_, hdraws s₀, habove, rfl, ?_, fun _ _ _ => rfl, hrow, hcol, hpend, rfl, ?_, ?_, ?_, ?_⟩
  · exact (List.append_nil prompt).symm ▸ hshows
  · exact (List.append_nil prompt).symm ▸ layout_length hfits.pos
  · exact (le_rows_mul hw _).trans (Nat.mul_le_mul_right _ (le_max_right _ _))
  · exact (Nat.le_add_right _ _).trans hrows
  · exact lt_max_of_lt_right (Nat.lt_succ_self _)

end Line

/-- After every run of the editor the terminal shows the prompt and the text that the edits
give, row after row and nothing behind them; its cursor is behind the text before the cursor
of the line, and the rows above the prompt are as they were. The prompt must end inside a
row, the texts must fit on the screen without dividing a wide character, and the terminal
must draw the characters as wide as they are counted. -/
theorem screen_shows_text (f : Format) (s : Screen) (prompt : List UInt8)
    (promptGlyphs : List (List UInt8)) (before line : List UInt8) (ops : List Operation)
    (hw : 0 < f.width) (hw' : f.width < 2 ^ 16) (hh : f.height < 2 ^ 16)
    (hdraws : Draws f prompt promptGlyphs)
    (hinside : Terminal.breadth f promptGlyphs % f.width ≠ 0)
    (hcolumn : s.column = 0) (hpending : s.pending = false)
    (hblank : ∀ r c, s.row ≤ r → s.cell r c = .blank)
    (hprint : ∀ c, Operation.insertChar c ∈ ops → Printable f c)
    (hroom : ∀ es, es <+: ops → Line.Roomy f s.row promptGlyphs
      (Zipper.empty.run isSpace (es.map Operation.edit)).text)
    (hfit : Line.room ops + 1 ≤ line.length)
    (hbefore : ∃ b ∈ before, isContinuation b = false) :
    let width := Terminal.breadth f promptGlyphs
    let z := Zipper.empty.run isSpace (ops.map Operation.edit)
    ∃ l s', (Line.start prompt width before line f.width).run ops = .ok l ∧
      display f (s, .ground) (prompt ++ l.terminal) = (s', .ground) ∧
      s'.Shows f s.row (promptGlyphs ++ glyphs z.text) ∧
      s'.row = s.row + (width + cells z.left) / f.width ∧
      s'.column = (width + cells z.left) % f.width ∧ s'.pending = false ∧
      SameAbove s.row s s' := by
  intro width z
  have hconsole : (Line.start prompt width before line f.width).Console f promptGlyphs :=
    ⟨hdraws, rfl, hinside, rfl, hw, hw', hh⟩
  have hrefines := Line.start_refines prompt width before line f.width
  obtain ⟨s₁, hs₁, habove, hstart⟩ := Line.start_onDisplay hconsole
    (hroom [] List.nil_prefix) hcolumn hpending hblank
  -- a printable character is no NUL
  have hnul : ∀ op ∈ ops, op.NonNul := by
    intro op hop
    cases op with
    | insertChar c =>
      rintro rfl
      exact absurd (hprint _ hop).space_le (by decide)
    | deleteChar del => trivial
    | updateCursorPos d => trivial
  have hroom₀ : (Line.start prompt width before line f.width).lineSize + Line.room ops + 1 ≤
      line.length := (congrArg (· + 1) (Nat.zero_add _)).trans_le hfit
  have hrun := hstart.run hrefines hconsole hnul hroom₀
    (fun c hc => absurd hc List.not_mem_nil) hprint hroom
  -- the run can only end at a byte below the buffer, which is not a continuation
  cases hl : (Line.start prompt width before line f.width).run ops with
  | error e =>
    obtain ⟨b, hb, hnot⟩ := hbefore
    rw [(hrun.of_error hl).2 b hb] at hnot
    exact absurd hnot (by decide)
  | ok l =>
    obtain ⟨hl', ⟨-, hlen, -, hwidth, -, -, -⟩, s', hs'⟩ := hrun.of_ok hl
    have hplace := hs'.column
    rw [Line.columns, ← hlen, hwidth, hl'.column] at hplace
    have hrow := hs'.row
    rw [← hlen, hl'.column] at hrow
    refine ⟨l, s', rfl, ?_, hs'.shows, hrow, hplace, hs'.pending, habove.trans hs'.above⟩
    rw [display_append, hs₁, hs'.display]

def clientPrompt : List UInt8 :=
  [0x1b, 0x5b] ++ [0x30, 0x3b, 0x33, 0x32] ++ [0x6d] ++ encodeChar '➜' ++
    ([0x1b, 0x5b] ++ [0x30] ++ [0x6d]) ++ encodeChar ' '

theorem draws_clientPrompt (harrow : Printable f '➜') (hspace : Printable f ' ') :
    Draws f clientPrompt (glyphs ['➜', ' ']) := by
  have hgreen : ∀ b ∈ ([0x30, 0x3b, 0x33, 0x32] : List UInt8), b < 0x40 := by decide +kernel
  have hreset : ∀ b ∈ ([0x30] : List UInt8), b < 0x40 := by decide +kernel
  exact (((draws_style hgreen).append harrow.draws).append (draws_style hreset)).append hspace.draws

/-- The keys `a`, `b` and `c` behind the prompt of the client on a screen of four columns, where
the last one starts a row, and a backspace. -/
def wrappedKeys : List Operation :=
  [.insertChar 'a', .insertChar 'b', .insertChar 'c', .deleteChar false]

theorem wrappedKeys_roomy (es : List Operation) (hes : es <+: wrappedKeys) :
    Line.Roomy ⟨4, 24, fun _ => 1⟩ 0 (glyphs ['➜', ' '])
      (Zipper.empty.run isSpace (es.map Operation.edit)).text := by
  have hfits : ∀ n ≤ 4, Line.Roomy ⟨4, 24, fun _ => 1⟩ 0 (glyphs ['➜', ' '])
      (Zipper.empty.run isSpace ((wrappedKeys.take n).map Operation.edit)).text := by
    intro n hn
    interval_cases n
    all_goals exact ⟨by simp [Fits, glyphs, Zipper.run, Zipper.empty, Zipper.text, Zipper.edit,
      Operation.edit, wrappedKeys, Zipper.backspace], by decide +kernel⟩
  rw [List.prefix_iff_eq_take.mp hes]
  exact hfits es.length hes.length_le

theorem screen_shows_text_key :
    let f : Format := ⟨4, 24, fun _ => 1⟩
    let s : Screen := ⟨fun _ _ => .blank, 0, 0, false⟩
    ∃ l s', (Line.start clientPrompt 2 [0] (List.replicate 64 0) 4).run wrappedKeys = .ok l ∧
      display f (s, .ground) (clientPrompt ++ l.terminal) = (s', .ground) ∧
      s'.Shows f 0 (glyphs ['➜', ' '] ++ glyphs ['a', 'b']) ∧ s'.row = 1 ∧ s'.column = 0 ∧
      s'.pending = false ∧ SameAbove 0 s s' := by
  intro f s
  have harrow : Printable f '➜' := ⟨by decide, by decide, by decide +kernel⟩
  have hspace : Printable f ' ' := ⟨by decide, by decide, by decide +kernel⟩
  have hkeys : ∀ c, Operation.insertChar c ∈ wrappedKeys → Printable f c := by
    intro c hc
    have hmem : c = 'a' ∨ c = 'b' ∨ c = 'c' := by simpa [wrappedKeys] using hc
    rcases hmem with rfl | rfl | rfl
    · exact ⟨by decide, by decide, by decide +kernel⟩
    · exact ⟨by decide, by decide, by decide +kernel⟩
    · exact ⟨by decide, by decide, by decide +kernel⟩
  have hcells : cells ['a', 'b'] = 2 := by decide +kernel
  have hwidth : Terminal.breadth f (glyphs ['➜', ' ']) = 2 := rfl
  obtain ⟨l, s', hrun, hdisplay, hshows, hrow, hcolumn, hrest⟩ := screen_shows_text f s clientPrompt
    (glyphs ['➜', ' ']) [0] (List.replicate 64 0) wrappedKeys (by decide) (by decide)
    (by decide) (draws_clientPrompt harrow hspace) (by decide) rfl rfl (fun _ _ _ => rfl)
    hkeys wrappedKeys_roomy (by decide) ⟨0, by decide, by decide⟩
  have hleft : (Zipper.empty.run isSpace (wrappedKeys.map Operation.edit)).left = ['a', 'b'] := rfl
  rw [hwidth, hleft, hcells] at hrow hcolumn
  exact ⟨l, s', hrun, hdisplay, hshows, hrow.trans (by decide), hcolumn.trans (by decide), hrest⟩

end Parcel
