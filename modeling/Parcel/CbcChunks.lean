import Parcel.Aes128Modes

/-!
# CBC over chunks

A context of `aes128_init` carries the chaining value from one call to the next,
so only the bytes count and not how they were split into calls, and the two
directions undo each other.
-/

namespace Parcel.Aes
open ByteStrings

/-- Successive calls of `aes128_encrypt` on consecutive chunks. -/
def encryptChunks (ctx : Aes128) : List (List UInt8) → List UInt8
  | [] => []
  | chunk :: chunks =>
    let out := aes128Encrypt ctx chunk chunk.length
    out.2 ++ encryptChunks out.1 chunks

/-- Successive calls of `aes128_decrypt` on consecutive chunks. -/
def decryptChunks (ctx : Aes128) : List (List UInt8) → List UInt8
  | [] => []
  | chunk :: chunks =>
    let out := aes128Decrypt ctx chunk chunk.length
    out.2 ++ decryptChunks out.1 chunks

structure Chunking (bytes : List UInt8) (chunks : List (List UInt8)) : Prop where
  flatten : chunks.flatten = bytes
  whole : ∀ chunk ∈ chunks, 16 ∣ chunk.length

theorem block_finite : Finite Block := by
  have hbyte : Finite UInt8 := Finite.of_injective UInt8.toFin fun a b h => UInt8.toFin_inj.mp h
  refine Finite.of_injective (fun (b : Block) (i : Fin 16) => b[i]) ?_
  intro a b h
  ext i hi
  exact congrArg UInt8.toNat (congrFun h ⟨i, hi⟩)

theorem aesXcrypt_inverse' (s : Block) (rk : RoundKey) :
    aesXcrypt (aesXcrypt s rk true) rk false = s := by
  have hfinite := block_finite
  have hleft : Function.LeftInverse (aesXcrypt · rk true) (aesXcrypt · rk false) :=
    fun x => aesXcrypt_inverse x rk
  have hsurj : Function.Surjective (aesXcrypt · rk false) :=
    Finite.surjective_of_injective hleft.injective
  exact hleft.rightInverse_of_surjective hsurj s

def blockCount (bytes : List UInt8) : ℕ := bytes.length / 16

theorem toBlocks_append {bytes rest : List UInt8} {m : ℕ} (h : bytes.length = 16 * m) (n : ℕ) :
    toBlocks (m + n) (bytes ++ rest) = toBlocks m bytes ++ toBlocks n rest := by
  induction m generalizing bytes with
  | zero =>
    rw [List.eq_nil_of_length_eq_zero h, Nat.zero_add]
    rfl
  | succ m ih =>
    have hdrop : (bytes ++ rest).drop 16 = bytes.drop 16 ++ rest :=
      List.drop_append_of_le_length (by omega)
    have hsplit : bytes = (readVec 16 bytes).toList ++ bytes.drop 16 :=
      (readVec_append_drop (by omega)).symm
    have hread : readVec 16 (bytes ++ rest) = readVec 16 bytes := by
      rw [hsplit, List.append_assoc, readVec_append, readVec_append]
    rw [Nat.succ_add, toBlocks, toBlocks, hdrop, hread, ih (by rw [List.length_drop]; omega),
      List.cons_append]

theorem ofBlocks_append (bs cs : List Block) : ofBlocks (bs ++ cs) = ofBlocks bs ++ ofBlocks cs :=
  List.flatMap_append

theorem Chunking.cons {bytes chunk : List UInt8} {chunks : List (List UInt8)}
    (h : Chunking bytes (chunk :: chunks)) :
    chunk.length = 16 * blockCount chunk ∧ Chunking chunks.flatten chunks ∧
      bytes = chunk ++ chunks.flatten ∧
      blockCount bytes = blockCount chunk + blockCount chunks.flatten := by
  have hwhole := h.whole chunk List.mem_cons_self
  have hbytes : bytes = chunk ++ chunks.flatten := by rw [← h.flatten, List.flatten_cons]
  refine ⟨?_, ⟨rfl, fun c hc => h.whole c (List.mem_cons_of_mem _ hc)⟩, hbytes, ?_⟩
  · rw [blockCount]
    omega
  · rw [blockCount, blockCount, blockCount, hbytes, List.length_append]
    omega

theorem encryptChunks_eq {bytes : List UInt8} {chunks : List (List UInt8)} (ctx : Aes128)
    (h : Chunking bytes chunks) :
    encryptChunks ctx chunks = ofBlocks (Cbc.encrypt xor128 (aesXcrypt · ctx.roundKey false) ctx.iv
      (toBlocks (blockCount bytes) bytes)) := by
  induction chunks generalizing ctx bytes with
  | nil =>
    rw [← h.flatten]
    rfl
  | cons chunk chunks ih =>
    obtain ⟨hlen, hrest, hbytes, hcount⟩ := h.cons
    have hblocks : (chunk.length + 15) / 16 = blockCount chunk := by omega
    have hnone : chunk.drop (16 * blockCount chunk) = [] := List.drop_of_length_le hlen.le
    rw [encryptChunks, hcount, hbytes, toBlocks_append hlen, Cbc.encrypt_append, ofBlocks_append,
      aes128Encrypt, hblocks, encryptBlocks_eq, hnone, List.append_nil]
    dsimp only
    rw [ih _ hrest]

theorem decryptChunks_eq {bytes : List UInt8} {chunks : List (List UInt8)} (ctx : Aes128)
    (h : Chunking bytes chunks) :
    decryptChunks ctx chunks = ofBlocks (Cbc.decrypt xor128 (aesXcrypt · ctx.roundKey true) ctx.iv
      (toBlocks (blockCount bytes) bytes)) := by
  induction chunks generalizing ctx bytes with
  | nil =>
    rw [← h.flatten]
    rfl
  | cons chunk chunks ih =>
    obtain ⟨hlen, hrest, hbytes, hcount⟩ := h.cons
    have hblocks : (chunk.length + 15) / 16 = blockCount chunk := by omega
    have hnone : chunk.drop (16 * blockCount chunk) = [] := List.drop_of_length_le hlen.le
    rw [decryptChunks, hcount, hbytes, toBlocks_append hlen, Cbc.decrypt_append, ofBlocks_append,
      aes128Decrypt, hblocks, decryptBlocks_eq, hnone, List.append_nil]
    dsimp only
    rw [ih _ hrest]

theorem Chunking.length {bytes : List UInt8} {chunks : List (List UInt8)}
    (h : Chunking bytes chunks) :
    bytes.length = 16 * blockCount bytes := by
  have hdvd : 16 ∣ bytes.length := by
    rw [← h.flatten, List.length_flatten]
    refine List.dvd_sum ?_
    intro n hn
    obtain ⟨chunk, hchunk, rfl⟩ := List.mem_map.mp hn
    exact h.whole chunk hchunk
  rw [blockCount]
  omega

theorem toBlocks_of_image {bytes : List UInt8} {bs : List Block} (h : bytes = ofBlocks bs) :
    toBlocks (blockCount bytes) bytes = bs := by
  have hcount : blockCount bytes = bs.length := by
    rw [blockCount, h, ofBlocks_length]
    omega
  rw [hcount, h]
  simpa using toBlocks_ofBlocks bs []

theorem ofBlocks_toBlocks_whole {bytes : List UInt8} (h : bytes.length = 16 * blockCount bytes) :
    ofBlocks (toBlocks (blockCount bytes) bytes) = bytes := by
  rw [ofBlocks_toBlocks _ _ h.ge, List.take_of_length_le h.le]

/-- Decryption in any chunks undoes encryption in any chunks, and conversely. -/
theorem cbc_chunks_inverse (key iv : Block) (bytes : List UInt8) (chunks : List (List UInt8))
    (h : Chunking bytes chunks) (chunks' : List (List UInt8)) :
    (Chunking (encryptChunks (aes128Init iv key) chunks) chunks' →
      decryptChunks (aes128Init iv key) chunks' = bytes) ∧
    (Chunking (decryptChunks (aes128Init iv key) chunks) chunks' →
      encryptChunks (aes128Init iv key) chunks' = bytes) := by
  have henc := encryptChunks_eq (aes128Init iv key) h
  have hdec := decryptChunks_eq (aes128Init iv key) h
  constructor
  · intro h'
    rw [decryptChunks_eq _ h', toBlocks_of_image henc,
      Cbc.decrypt_encrypt xor128_cancel (fun x => aesXcrypt_inverse x _),
      ofBlocks_toBlocks_whole h.length]
  · intro h'
    rw [encryptChunks_eq _ h', toBlocks_of_image hdec,
      Cbc.encrypt_decrypt xor128_cancel (fun x => aesXcrypt_inverse' x _),
      ofBlocks_toBlocks_whole h.length]

/-- Two blocks encrypted in three calls, one of them empty, and decrypted in one. -/
theorem cbc_chunks_inverse_two :
    ∃ chunks',
      Chunking (List.replicate 32 7) [List.replicate 16 7, [], List.replicate 16 7] ∧
      Chunking (encryptChunks (aes128Init (Vector.replicate 16 1) (Vector.replicate 16 2))
        [List.replicate 16 7, [], List.replicate 16 7]) chunks' ∧
      decryptChunks (aes128Init (Vector.replicate 16 1) (Vector.replicate 16 2)) chunks' =
        List.replicate 32 7 := by
  have h : Chunking (List.replicate 32 7) [List.replicate 16 7, [], List.replicate 16 7] :=
    ⟨by decide, by decide⟩
  generalize hctx : aes128Init (Vector.replicate 16 1) (Vector.replicate 16 2) = ctx
  have h' : Chunking (encryptChunks ctx [List.replicate 16 7, [], List.replicate 16 7])
      [encryptChunks ctx [List.replicate 16 7, [], List.replicate 16 7]] := by
    refine ⟨by rw [List.flatten_cons, List.flatten_nil, List.append_nil], ?_⟩
    intro chunk hchunk
    rw [List.mem_singleton.mp hchunk, encryptChunks_eq ctx h, ofBlocks_length]
    exact Nat.dvd_mul_right _ _
  subst hctx
  exact ⟨_, h, h', (cbc_chunks_inverse _ _ _ _ h _).1 h'⟩

end Parcel.Aes
