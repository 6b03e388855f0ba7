import Parcel.BoundedReads
import Parcel.Receiving

/-!
# The public address

The functions of `xutils.c` that ask a web service for the address of the daemon. The body
of the response is what stands behind its first empty line; it is copied to an array of 16
bytes, however long it is.
-/

namespace Parcel
open BoundedReads

def responseLength : ℕ := 4096

/-- The size of the array `ip`, `INET_ADDRSTRLEN`. -/
def inetAddrstrlen : ℕ := 16

/-- The structure `req_rsp_t`; `data` is the memory from the pointer on. -/
structure ReqRsp where
  data : List UInt8
  len : ℕ
  deriving DecidableEq

/-- What the calls of `http_request` give: whether the ones before the first `recv` succeed,
the socket, and whether it can be closed at the end of the response. -/
structure HttpEnv where
  addrinfo : Bool
  socket : Bool
  connected : Bool
  sent : Bool
  sock : Sock
  closes : Bool

/-- Why there is no result: a call of `recv` that does not return, or an access outside of
the buffer. -/
inductive HttpStop
  | pending
  | fault
  deriving DecidableEq

def orStop {α : Type} : Option α → Except HttpStop α
  | some a => .ok a
  | none => .error .fault

/-- The receiving loop at offset `i` of the buffer, with a bound on its turns. -/
def receiveResponse (closes : Bool) : ℕ → List UInt8 → ℕ → Sock → Except HttpStop (Bool × ReqRsp)
  | 0, _, _, _ => .error .fault
  | turns + 1, data, i, sock =>
    if i < responseLength then
      match xrecv sock (responseLength - i) with
      | .blocks => .error .pending
      | .failed => .ok (false, ⟨data, responseLength⟩)
      | .closed => .ok (closes, ⟨data, if closes then i else responseLength⟩)
      | .bytes got rest => do
        let data ← orStop (writeAt data i got)
        receiveResponse closes turns data (i + got.length) rest
    else .ok (false, ⟨data, responseLength⟩)

/-- The function `http_request` on the zeroed buffer of its caller. -/
def httpRequest (env : HttpEnv) : Except HttpStop (Bool × ReqRsp) :=
  let data := List.replicate responseLength 0
  if env.addrinfo && env.socket && env.connected && env.sent then
    receiveResponse env.closes (responseLength + 1) data 0 env.sock
  else .ok (false, ⟨data, responseLength⟩)

/-- The function `xmemchr`, as the distance to the byte; `none` outside of the memory. -/
def xmemchr : List UInt8 → UInt8 → ℕ → Option (Option ℕ)
  | _, _, 0 => some none
  | [], _, _ + 1 => none
  | b :: mem, c, len + 1 =>
    if b = c then some (some 0) else (xmemchr mem c len).map (Option.map (· + 1))

/-- The loop of `http_extract_body` with `s` at an offset of the data and `i` bytes left. -/
def extractLoop (r : ReqRsp) : ℕ → ℕ → ℕ → Option (Bool × ReqRsp)
  | 0, _, _ => none
  | turns + 1, s, i => do
    match ← xmemchr (r.data.drop s) 0x0a i with
    | none => some (false, r)
    | some d =>
      let body := s + d + 1
      if d = 0 ∨ (d = 1 ∧ byteAt r.data s = some 0x0d) then
        some (true, ⟨r.data.drop body, sizeAdd (sizeSub r.len body) 1⟩)
      else extractLoop r turns body (sizeSub r.len body)

def httpExtractBody (r : ReqRsp) : Option (Bool × ReqRsp) := extractLoop r (r.len + 1) 0 r.len

/-- The function `xgetpublicip`: what it copies to `ip`, unless it returns false. -/
def xgetpublicip (env : HttpEnv) : Except HttpStop (Option (List UInt8)) := do
  let (ok, r) ← httpRequest env
  if !ok then return none
  let (ok, r) ← orStop (httpExtractBody r)
  if !ok then return none
  return some (← orStop (copyAt r.data 0 r.len))

def EmptyLine (line : List UInt8) : Prop := line = [] ∨ line = [0x0d]

instance (line : List UInt8) : Decidable (EmptyLine line) := inferInstanceAs (Decidable (_ ∨ _))

def joinLines (lines : List (List UInt8)) : List UInt8 := lines.flatMap (· ++ [0x0a])

/-- The response has an empty line behind some others, and a body behind that. -/
structure HeaderEnd (resp : List UInt8) (lines : List (List UInt8)) (body : List UInt8) : Prop where
  free : ∀ line ∈ lines, 0x0a ∉ line
  eq : ∃ last, EmptyLine last ∧ resp = joinLines lines ++ (last ++ 0x0a :: body)

structure FirstHeaderEnd (resp : List UInt8) (lines : List (List UInt8)) (body : List UInt8) : Prop
    extends HeaderEnd resp lines body where
  first : ∀ line ∈ lines, ¬EmptyLine line

theorem joinLines_cons (line : List UInt8) (lines : List (List UInt8)) (rest : List UInt8) :
    joinLines (line :: lines) ++ rest = line ++ 0x0a :: (joinLines lines ++ rest) := by
  rw [joinLines, List.flatMap_cons, List.append_assoc, List.append_assoc]
  rfl

theorem exists_lines (resp : List UInt8) :
    ∃ lines tail, (∀ line ∈ lines, 0x0a ∉ line) ∧ 0x0a ∉ tail ∧ resp = joinLines lines ++ tail := by
  induction resp with
  | nil => exact ⟨[], [], List.forall_mem_nil _, List.not_mem_nil, rfl⟩
  | cons b resp ih =>
    obtain ⟨lines, tail, hlines, htail, rfl⟩ := ih
    by_cases hb : b = 0x0a
    · subst hb
      refine ⟨[] :: lines, tail, List.forall_mem_cons.mpr ⟨List.not_mem_nil, hlines⟩, htail, ?_⟩
      rw [joinLines_cons]
      rfl
    · cases lines with
      | nil =>
        refine ⟨[], b :: tail, List.forall_mem_nil _, ?_, rfl⟩
        rw [List.mem_cons, not_or]
        exact ⟨Ne.symm hb, htail⟩
      | cons line lines =>
        have hline := List.forall_mem_cons.mp hlines
        refine ⟨(b :: line) :: lines, tail, List.forall_mem_cons.mpr ⟨?_, hline.2⟩, htail, ?_⟩
        · rw [List.mem_cons, not_or]
          exact ⟨Ne.symm hb, hline.1⟩
        · rw [joinLines_cons, joinLines_cons]
          rfl

theorem exists_first {lines : List (List UInt8)} (hfree : ∀ line ∈ lines, 0x0a ∉ line)
    (tail : List UInt8) :
    (∀ line ∈ lines, ¬EmptyLine line) ∨
      ∃ before body, FirstHeaderEnd (joinLines lines ++ tail) before body := by
  induction lines with
  | nil => exact Or.inl (List.forall_mem_nil _)
  | cons line lines ih =>
    have hline := List.forall_mem_cons.mp hfree
    by_cases hempty : EmptyLine line
    · refine Or.inr ⟨[], joinLines lines ++ tail, ⟨List.forall_mem_nil _, line, hempty, ?_⟩,
        List.forall_mem_nil _⟩
      rw [joinLines_cons]
      rfl
    · rcases ih hline.2 with hnone | ⟨before, body, ⟨hbefore, last, hlast, heq⟩, hfirst⟩
      · exact Or.inl (List.forall_mem_cons.mpr ⟨hempty, hnone⟩)
      · refine Or.inr ⟨line :: before, body, ⟨List.forall_mem_cons.mpr ⟨hline.1, hbefore⟩, last,
          hlast, ?_⟩, List.forall_mem_cons.mpr ⟨hempty, hfirst⟩⟩
        rw [joinLines_cons, joinLines_cons, heq]

theorem HeaderEnd.exists_first {resp : List UInt8} {lines : List (List UInt8)} {body : List UInt8}
    (h : HeaderEnd resp lines body) : ∃ before body, FirstHeaderEnd resp before body := by
  obtain ⟨last, hlast, rfl⟩ := h.eq
  rcases Parcel.exists_first h.free (last ++ 0x0a :: body) with hnone | hfirst
  · exact ⟨lines, body, h, hnone⟩
  · exact hfirst

/-! ## The scan -/

theorem xmemchr_found {line : List UInt8} (hfree : 0x0a ∉ line) (rest : List UInt8) {n : ℕ}
    (hn : line.length < n) : xmemchr (line ++ 0x0a :: rest) 0x0a n = some (some line.length) := by
  induction line generalizing n with
  | nil =>
    obtain ⟨n, rfl⟩ : ∃ k, n = k + 1 := Nat.exists_eq_succ_of_ne_zero (Nat.ne_of_gt hn)
    rfl
  | cons b line ih =>
    rw [List.mem_cons, not_or] at hfree
    obtain ⟨n, rfl⟩ : ∃ k, n = k + 1 :=
      Nat.exists_eq_succ_of_ne_zero (Nat.ne_of_gt ((Nat.zero_le _).trans_lt hn))
    rw [List.cons_append, xmemchr, if_neg (Ne.symm hfree.1),
      ih hfree.2 (Nat.lt_of_succ_lt_succ hn)]
    rfl

theorem xmemchr_absent {tail : List UInt8} (hfree : 0x0a ∉ tail) (rest : List UInt8) :
    xmemchr (tail ++ rest) 0x0a tail.length = some none := by
  induction tail with
  | nil => cases rest <;> rfl
  | cons b tail ih =>
    rw [List.mem_cons, not_or] at hfree
    rw [List.cons_append, List.length_cons, xmemchr, if_neg (Ne.symm hfree.1), ih hfree.2]
    rfl

theorem EmptyLine.free {line : List UInt8} (h : EmptyLine line) : 0x0a ∉ line := by
  rcases h with rfl | rfl
  · exact List.not_mem_nil
  · decide

theorem emptyLine_iff (line rest : List UInt8) :
    (line.length = 0 ∨ (line.length = 1 ∧ byteAt (line ++ rest) 0 = some 0x0d)) ↔
      EmptyLine line := by
  match line with
  | [] => exact iff_of_true (Or.inl rfl) (Or.inl rfl)
  | [b] => simp [EmptyLine, byteAt]
  | _ :: _ :: _ => simp [EmptyLine]

section

variable {r : ReqRsp} {s turns : ℕ} {rest : List UInt8}

theorem extractLoop_line {line : List UInt8} (hdata : r.data.drop s = line ++ 0x0a :: rest)
    (hfree : 0x0a ∉ line) {i : ℕ} (hi : line.length < i) :
    extractLoop r (turns + 1) s i =
      if EmptyLine line then
        some (true, ⟨rest, sizeAdd (sizeSub r.len (s + line.length + 1)) 1⟩)
      else extractLoop r turns (s + line.length + 1) (sizeSub r.len (s + line.length + 1)) := by
  have hbyte : byteAt r.data s = byteAt (line ++ 0x0a :: rest) 0 := by
    rw [← hdata, byteAt, byteAt, List.getElem?_drop, Nat.add_zero]
  have hrest : r.data.drop (s + line.length + 1) = rest := by
    rw [Nat.add_assoc, ← List.drop_drop, hdata, ← List.drop_drop, List.drop_left]
    rfl
  rw [extractLoop, hdata, xmemchr_found hfree rest hi, hbyte]
  simp only [Option.bind_eq_bind, Option.bind_some, emptyLine_iff, hrest]

theorem extractLoop_absent {tail : List UInt8} (hdata : r.data.drop s = tail ++ rest)
    (hfree : 0x0a ∉ tail) : extractLoop r (turns + 1) s tail.length = some (false, r) := by
  rw [extractLoop, hdata, xmemchr_absent hfree rest]
  rfl

theorem extractLoop_lines (turns : ℕ) {lines : List (List UInt8)} {tail : List UInt8}
    (hfree : ∀ line ∈ lines, 0x0a ∉ line) (hfirst : ∀ line ∈ lines, ¬EmptyLine line)
    (hdata : r.data.drop s = joinLines lines ++ tail ++ rest)
    (hlen : r.len = s + (joinLines lines ++ tail).length) (hsize : r.len < 2 ^ 64) :
    ∃ s', r.data.drop s' = tail ++ rest ∧ r.len = s' + tail.length ∧
      extractLoop r (lines.length + turns) s (joinLines lines ++ tail).length =
        extractLoop r turns s' tail.length := by
  induction lines generalizing s with
  | nil =>
    rw [List.length_nil, Nat.zero_add]
    exact ⟨s, hdata, hlen, rfl⟩
  | cons line lines ih =>
    have hline := List.forall_mem_cons.mp hfree
    have hnonempty := List.forall_mem_cons.mp hfirst
    rw [joinLines_cons] at hdata hlen ⊢
    rw [List.append_assoc, List.cons_append] at hdata
    have hnext : r.data.drop (s + line.length + 1) = joinLines lines ++ tail ++ rest := by
      rw [Nat.add_assoc, ← List.drop_drop, hdata, ← List.drop_drop, List.drop_left]
      rfl
    rw [List.length_append, List.length_cons] at hlen ⊢
    have hsub : sizeSub r.len (s + line.length + 1) = (joinLines lines ++ tail).length := by
      rw [sizeSub_eq (by omega) hsize]
      omega
    rw [List.length_cons, Nat.add_right_comm, extractLoop_line hdata hline.1 (by omega),
      if_neg hnonempty.1, hsub]
    exact ih hline.2 hnonempty.2 hnext (by omega)

end

def received (resp : List UInt8) : ReqRsp :=
  ⟨resp ++ List.replicate (responseLength - resp.length) 0, resp.length⟩

theorem length_le_joinLines (lines : List (List UInt8)) :
    lines.length ≤ (joinLines lines).length := by
  induction lines with
  | nil => exact Nat.zero_le _
  | cons line lines ih =>
    rw [← List.append_nil (joinLines (line :: lines)), joinLines_cons, List.append_nil,
      List.length_append, List.length_cons, List.length_cons]
    omega

section

variable {resp : List UInt8} (hresp : resp.length < responseLength)

include hresp

theorem httpExtractBody_lines {lines : List (List UInt8)} {tail : List UInt8}
    (hfree : ∀ line ∈ lines, 0x0a ∉ line) (hfirst : ∀ line ∈ lines, ¬EmptyLine line)
    (heq : resp = joinLines lines ++ tail) :
    ∃ turns s, (received resp).data.drop s =
        tail ++ List.replicate (responseLength - resp.length) 0 ∧
      (received resp).len = s + tail.length ∧ (received resp).len < 2 ^ 64 ∧
      httpExtractBody (received resp) = extractLoop (received resp) (turns + 1) s tail.length := by
  have hsize : (received resp).len < 2 ^ 64 := hresp.trans (by norm_num [responseLength])
  have hstart : (received resp).data.drop 0 =
      joinLines lines ++ tail ++ List.replicate (responseLength - resp.length) 0 := by
    rw [List.drop_zero, ← heq]
    rfl
  have hwhole : (received resp).len = 0 + (joinLines lines ++ tail).length := by
    rw [Nat.zero_add, ← heq]
    rfl
  -- There are no more lines than bytes, so a turn is left for the tail.
  have hlines : lines.length ≤ resp.length := by
    rw [heq, List.length_append]
    exact (length_le_joinLines lines).trans (Nat.le_add_right _ _)
  have hturns : lines.length + (resp.length - lines.length + 1) = resp.length + 1 := by omega
  obtain ⟨s, hdata, hlen, hloop⟩ :=
    extractLoop_lines (resp.length - lines.length + 1) hfree hfirst hstart hwhole hsize
  rw [hturns, ← heq] at hloop
  exact ⟨resp.length - lines.length, s, hdata, hlen, hsize, hloop⟩

theorem httpExtractBody_first {lines : List (List UInt8)} {body : List UInt8}
    (h : FirstHeaderEnd resp lines body) :
    httpExtractBody (received resp) =
      some (true, ⟨body ++ List.replicate (responseLength - resp.length) 0, body.length + 1⟩) := by
  obtain ⟨last, hlast, heq⟩ := h.eq
  obtain ⟨turns, s, hdata, hlen, hsize, hloop⟩ := httpExtractBody_lines hresp h.free h.first heq
  rw [List.append_assoc, List.cons_append] at hdata
  rw [List.length_append, List.length_cons] at hlen hloop
  have hsub : sizeSub (received resp).len (s + last.length + 1) = body.length := by
    rw [sizeSub_eq (by omega) hsize]
    omega
  rw [hloop, extractLoop_line hdata hlast.free (by omega), if_pos hlast, hsub,
    sizeAdd_eq (by omega)]

theorem httpExtractBody_none (h : ¬∃ lines body, HeaderEnd resp lines body) :
    httpExtractBody (received resp) = some (false, received resp) := by
  obtain ⟨lines, tail, hfree, htail, heq⟩ := exists_lines resp
  have hfirst : ∀ line ∈ lines, ¬EmptyLine line := by
    refine (exists_first hfree tail).resolve_right fun hbody => h ?_
    obtain ⟨before, body, hbefore⟩ := hbody
    exact ⟨before, body, heq ▸ hbefore.toHeaderEnd⟩
  obtain ⟨turns, s, hdata, -, -, hloop⟩ := httpExtractBody_lines hresp hfree hfirst heq
  rw [hloop, extractLoop_absent hdata htail]

end

/-- The whole response arrives and the connection ends, with some of the buffer left. -/
structure HttpEnv.Delivers (env : HttpEnv) : Prop where
  prepared : (env.addrinfo && env.socket && env.connected && env.sent) = true
  ends : env.sock.ending = .closed
  closes : env.closes = true
  short : env.sock.stream.length < responseLength

/-- A result that is `r` exactly if the response is delivered. -/
structure Receives (result : Except HttpStop (Bool × ReqRsp)) (delivered : Prop) (r : ReqRsp) :
    Prop where
  ok : delivered → result = .ok (true, r)
  refused : ¬delivered → result = .error .pending ∨ ∃ r, result = .ok (false, r)

theorem writeAt_received (got more : List UInt8) (h : got.length + more.length ≤ responseLength) :
    writeAt (received got).data got.length more = some (received (got ++ more)).data := by
  have hlen : (received got).data.length = responseLength := by
    rw [received, List.length_append, List.length_replicate]
    omega
  rw [writeAt, if_pos (by rwa [hlen]), received, received, List.take_left, ← List.drop_drop,
    List.drop_left, List.drop_replicate, List.length_append, Nat.sub_sub, List.append_assoc]

theorem receiveResponse_spec (closes : Bool) {turns : ℕ} {got : List UInt8} {sock : Sock}
    (hgot : got.length ≤ responseLength) (hturns : responseLength < turns + got.length) :
    Receives (receiveResponse closes turns (received got).data got.length sock)
      (sock.ending = .closed ∧ closes = true ∧ (got ++ sock.stream).length < responseLength)
      (received (got ++ sock.stream)) := by
  -- one call of `recv` a turn; the bytes received so far are in the buffer
  induction turns generalizing got sock with
  | zero => omega
  | succ turns ih =>
    rw [receiveResponse]
    by_cases hroom : got.length < responseLength
    · rw [if_pos hroom]
      by_cases hstream : sock.stream = []
      · rw [xrecv, if_pos hstream, hstream, List.append_nil]
        -- no bytes are left: the ending decides
        cases hend : sock.ending with
        | blocks => exact ⟨fun h => (by cases h.1), fun _ => Or.inl rfl⟩
        | failed => exact ⟨fun h => (by cases h.1), fun _ => Or.inr ⟨_, rfl⟩⟩
        | closed =>
          cases closes with
          | false => exact ⟨fun h => (by cases h.2.1), fun _ => Or.inr ⟨_, rfl⟩⟩
          | true => exact ⟨fun _ => rfl, fun h => absurd ⟨rfl, rfl, hroom⟩ h⟩
      · -- Some bytes arrive; the rest of the stream is that of a longer response.
        obtain ⟨n, hn⟩ : ∃ n, responseLength - got.length = n + 1 :=
          Nat.exists_eq_succ_of_ne_zero (by omega)
        have hportion := portion_bounds (n := n) hstream
        have hmore : (sock.stream.take (sock.portion (n + 1))).length = sock.portion (n + 1) :=
          List.length_take_of_le hportion.2.2
        have hwrite := writeAt_received got (sock.stream.take (sock.portion (n + 1))) (by omega)
        have hstep : Receives (receiveResponse closes turns
            (received (got ++ sock.stream.take (sock.portion (n + 1)))).data
            (got ++ sock.stream.take (sock.portion (n + 1))).length
            (sock.advance (sock.portion (n + 1)))) _ _ :=
          ih (by rw [List.length_append]; omega) (by rw [List.length_append]; omega)
        rw [hn, xrecv_bytes hstream]
        simp only [hwrite]
        rwa [Sock.advance, List.append_assoc, List.take_append_drop, List.length_append] at hstep
    · rw [if_neg hroom]
      refine ⟨fun h => absurd h.2.2 ?_, fun _ => Or.inr ⟨_, rfl⟩⟩
      rw [List.length_append]
      omega

theorem httpRequest_spec (env : HttpEnv) :
    Receives (httpRequest env) env.Delivers (received env.sock.stream) := by
  rw [httpRequest]
  by_cases hprepared : (env.addrinfo && env.socket && env.connected && env.sent) = true
  · have hspec : Receives (receiveResponse env.closes (responseLength + 1)
        (received []).data ([] : List UInt8).length env.sock) _ _ :=
      receiveResponse_spec env.closes (Nat.zero_le _) (Nat.lt_succ_self _)
    rw [if_pos hprepared]
    refine ⟨fun h => hspec.ok ⟨h.ends, h.closes, h.short⟩, fun h => hspec.refused fun hd => ?_⟩
    exact h ⟨hprepared, hd.1, hd.2.1, hd.2.2⟩
  · rw [if_neg hprepared]
    exact ⟨fun h => absurd h.prepared hprepared, fun _ => Or.inr ⟨_, rfl⟩⟩

/-! ## The copy -/

/-- The body of a delivered response is found behind its first empty line, with one NUL. -/
def BodyExtracted (env : HttpEnv) : Prop :=
  env.Delivers → ∃ r ok r', httpRequest env = .ok (true, r) ∧ httpExtractBody r = some (ok, r') ∧
    (ok = true ↔ ∃ lines body, HeaderEnd env.sock.stream lines body) ∧
    ∀ lines body, FirstHeaderEnd env.sock.stream lines body →
      r'.len = body.length + 1 ∧ r'.data.take r'.len = body ++ [0]

/-- Nothing outside of the buffer is read, and a terminated string that fits is copied. -/
def AddressFits (env : HttpEnv) : Prop :=
  xgetpublicip env ≠ .error .fault ∧ ∀ ip, xgetpublicip env = .ok (some ip) →
    ip.length ≤ inetAddrstrlen ∧ ip.getLast? = some 0

theorem take_body (body : List UInt8) {n : ℕ} (hn : 0 < n) :
    (body ++ List.replicate n 0).take (body.length + 1) = body ++ [0] := by
  obtain ⟨n, rfl⟩ : ∃ k, n = k + 1 := Nat.exists_eq_succ_of_ne_zero (Nat.ne_of_gt hn)
  rw [List.take_length_add_append]
  rfl

section

variable {env : HttpEnv}

theorem HttpEnv.Delivers.bodyExtracted (h : env.Delivers) : BodyExtracted env := by
  intro _
  have hzeros : 0 < responseLength - env.sock.stream.length := Nat.sub_pos_of_lt h.short
  by_cases hend : ∃ lines body, HeaderEnd env.sock.stream lines body
  · obtain ⟨lines, body, hlines⟩ := hend
    obtain ⟨before, first, hfirst⟩ := hlines.exists_first
    have hextract := httpExtractBody_first h.short hfirst
    refine ⟨_, _, _, (httpRequest_spec env).ok h, hextract,
      iff_of_true rfl ⟨lines, body, hlines⟩, fun lines' body' hfirst' => ?_⟩
    -- Two first bodies are both what the function returns.
    have hsame := hextract.symm.trans (httpExtractBody_first h.short hfirst')
    rw [(Prod.mk.inj (Option.some.inj hsame)).2]
    exact ⟨rfl, take_body body' hzeros⟩
  · exact ⟨_, _, _, (httpRequest_spec env).ok h, httpExtractBody_none h.short hend,
      iff_of_false Bool.false_ne_true hend,
      fun lines body hfirst => absurd ⟨lines, body, hfirst.toHeaderEnd⟩ hend⟩

theorem xgetpublicip_first (h : env.Delivers) {lines : List (List UInt8)} {body : List UInt8}
    (hfirst : FirstHeaderEnd env.sock.stream lines body) :
    xgetpublicip env = .ok (some (body ++ [0])) := by
  have hzeros : 0 < responseLength - env.sock.stream.length := Nat.sub_pos_of_lt h.short
  have hcopy : copyAt (body ++ List.replicate (responseLength - env.sock.stream.length) 0) 0
      (body.length + 1) = some (body ++ [0]) := by
    rw [copyAt_eq, List.drop_zero, take_body body hzeros]
    rw [List.length_append, List.length_replicate]
    omega
  rw [xgetpublicip, (httpRequest_spec env).ok h]
  change (orStop (httpExtractBody (received env.sock.stream))).bind _ = _
  rw [httpExtractBody_first h.short hfirst]
  change (orStop (copyAt _ 0 (body.length + 1))).bind _ = _
  rw [hcopy]
  rfl

theorem xgetpublicip_none
    (h : ¬(env.Delivers ∧ ∃ lines body, HeaderEnd env.sock.stream lines body)) :
    xgetpublicip env = .error .pending ∨ xgetpublicip env = .ok none := by
  by_cases hd : env.Delivers
  · have hend : ¬∃ lines body, HeaderEnd env.sock.stream lines body := fun hend => h ⟨hd, hend⟩
    rw [xgetpublicip, (httpRequest_spec env).ok hd]
    change (orStop (httpExtractBody (received env.sock.stream))).bind _ = _ ∨
      (orStop (httpExtractBody (received env.sock.stream))).bind _ = _
    rw [httpExtractBody_none hd.short hend]
    exact Or.inr rfl
  · rw [xgetpublicip]
    rcases (httpRequest_spec env).refused hd with hpending | ⟨r, hfalse⟩
    · rw [hpending]
      exact Or.inl rfl
    · rw [hfalse]
      exact Or.inr rfl

end

/-- The scan finds the body of every response, and the address fits its array exactly where
this body has at most 15 bytes. -/
theorem public_ip_iff (env : HttpEnv) :
    (BodyExtracted env ∧ AddressFits env) ↔
      (env.Delivers → ∀ lines body, FirstHeaderEnd env.sock.stream lines body →
        body.length ≤ 15) := by
  constructor
  · rintro ⟨-, -, hfits⟩ h lines body hfirst
    have hle := (hfits _ (xgetpublicip_first h hfirst)).1
    rw [List.length_append, inetAddrstrlen] at hle
    exact Nat.le_of_succ_le_succ hle
  · intro hshort
    refine ⟨fun h => h.bodyExtracted h, ?_⟩
    by_cases h : env.Delivers ∧ ∃ lines body, HeaderEnd env.sock.stream lines body
    · obtain ⟨hd, lines, body, hlines⟩ := h
      obtain ⟨before, first, hfirst⟩ := hlines.exists_first
      have hip := xgetpublicip_first hd hfirst
      refine ⟨by rw [hip]; exact nofun, fun ip heq => ?_⟩
      obtain rfl := Option.some.inj (Except.ok.inj (hip.symm.trans heq))
      rw [List.length_append, List.getLast?_append]
      exact ⟨Nat.succ_le_succ (hshort hd before first hfirst), rfl⟩
    · rcases xgetpublicip_none h with hip | hip
      · rw [AddressFits, hip]
        exact ⟨nofun, nofun⟩
      · rw [AddressFits, hip]
        exact ⟨nofun, nofun⟩

def longAnswer : HttpEnv where
  addrinfo := true
  socket := true
  connected := true
  sent := true
  sock := ⟨0x0a :: List.replicate 16 0x31, 0, fun _ => 17, .closed⟩
  closes := true

/-- The 16 digits and the NUL do not fit. -/
theorem long_answer_overflows :
    xgetpublicip longAnswer = .ok (some (List.replicate 16 0x31 ++ [0])) ∧
      ¬AddressFits longAnswer := by
  have hfirst : FirstHeaderEnd longAnswer.sock.stream [] (List.replicate 16 0x31) :=
    ⟨⟨List.forall_mem_nil _, [], Or.inl rfl, rfl⟩, List.forall_mem_nil _⟩
  have hip := xgetpublicip_first ⟨rfl, rfl, rfl, by decide⟩ hfirst
  refine ⟨hip, fun hfits => ?_⟩
  exact absurd (hfits.2 _ hip).1 (by decide)

end Parcel
