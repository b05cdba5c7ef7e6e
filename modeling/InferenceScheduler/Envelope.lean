/-
The envelope of a persisted payload (`src/persistence.hpp`,
`src/persistence.cpp`): the frame `write_persistence_file` builds and the
checks `read_persistence_file` makes of a file's bytes, on the POSIX branch of a
little-endian host. Files themselves are left out: a read that fails midway,
the temporary file and the rename.

`readFrame_ok_iff` says what is accepted, namely frames. That small damage is
noticed follows from it: two frames do not differ in one byte only, since every
step of the checksum is injective, and no frame continues another, since the
length stands in front.
-/
import InferenceScheduler.Lib.Binary
import InferenceScheduler.Types

namespace InferenceScheduler

open Binary

def persistenceMagic : UInt32 := 0x49534653

def persistenceFrameVersion : UInt32 := 1

/-- Magic, version and length. -/
def persistenceHeaderSize : UInt64 := 16

/-- The checksum. -/
def persistenceTrailerSize : UInt64 := 8

def fnv1a (h b : UInt64) : UInt64 := (h ^^^ b) * 1099511628211

def checksumOf (s : Bytes) : UInt64 := s.foldl (fun h c => fnv1a h c.toUInt64) 1469598103934665603

/-- The frame before its checksum. -/
def framePrefix (payload : Bytes) : Bytes :=
  putU32 persistenceMagic ++ putU32 persistenceFrameVersion ++ putU64 (UInt64.ofNat payload.length) ++ payload

/-- The frame of `write_persistence_file`. -/
def writeFrame (payload : Bytes) : Bytes := framePrefix payload ++ putU64 (checksumOf (framePrefix payload))

def getU32 (s : Bytes) (off : ℕ) : Option UInt32 :=
  if off + 4 > s.length then none else some (UInt32.ofNat (toNat ((s.drop off).take 4)))

def getU64 (s : Bytes) (off : ℕ) : Option UInt64 :=
  if off + 8 > s.length then none else some (UInt64.ofNat (toNat ((s.drop off).take 8)))

/-- The checks of `read_persistence_file` on the bytes of a file. The trailer is
found from the end, the payload from the front; the sum of the lengths wraps. -/
def readFrame (s : Bytes) : Result Bytes :=
  if s.length < persistenceHeaderSize.toNat + persistenceTrailerSize.toNat then .error (corruption "envelope too short")
  else match getU32 s 0, getU32 s 4, getU64 s 8 with
  | some magic, some ver, some len =>
    let chk := UInt64.ofNat (toNat (s.drop (s.length - persistenceTrailerSize.toNat)))
    if magic ≠ persistenceMagic then .error (corruption "bad magic")
    else if ver ≠ persistenceFrameVersion then .error (corruption "unsupported frame version")
    else if (len + persistenceHeaderSize + persistenceTrailerSize).toNat ≠ s.length then
      .error (corruption "length mismatch")
    else
      let payload := (s.drop persistenceHeaderSize.toNat).take len.toNat
      let before := s.take (persistenceHeaderSize + len).toNat
      if checksumOf before ≠ chk then .error (corruption "checksum mismatch") else .ok payload
  | _, _, _ => .error (corruption "envelope fields truncated")

/-- `read_persistence_file`, given what the path holds. -/
def readPersistenceFile (file : Option Bytes) : Result Bytes :=
  match file with
  | none => .error ⟨.notFound, "persistence file not readable"⟩
  | some [] => .error (corruption "unreadable size")
  | some s => readFrame s

/-! ## What is accepted -/

/-- Five fields in a row: bytes that are long enough for an envelope. -/
def frame (magic ver : UInt32) (len : UInt64) (payload : Bytes) (chk : UInt64) : Bytes :=
  putU32 magic ++ putU32 ver ++ putU64 len ++ payload ++ putU64 chk

theorem length_putU32 (v : UInt32) : (putU32 v).length = 4 := length_ofNat 4 _

theorem length_putU64 (v : UInt64) : (putU64 v).length = 8 := length_ofNat 8 _

theorem length_frame (magic ver : UInt32) (len : UInt64) (q : Bytes) (chk : UInt64) :
    (frame magic ver len q chk).length = q.length + 24 := by
  simp only [frame, List.length_append, length_putU32, length_putU64]
  omega

theorem writeFrame_eq (p : Bytes) : writeFrame p =
    frame persistenceMagic persistenceFrameVersion (UInt64.ofNat p.length) p (checksumOf (framePrefix p)) := rfl

theorem putU32_toNat {bs : Bytes} (h : bs.length = 4) : putU32 (UInt32.ofNat (toNat bs)) = bs := by
  have hlt := toNat_lt bs
  rw [h] at hlt
  rw [putU32, UInt32.toNat_ofNat_of_lt' hlt, ← h, ofNat_toNat]

theorem putU64_toNat {bs : Bytes} (h : bs.length = 8) : putU64 (UInt64.ofNat (toNat bs)) = bs := by
  have hlt := toNat_lt bs
  rw [h] at hlt
  rw [putU64, UInt64.toNat_ofNat_of_lt' hlt, ← h, ofNat_toNat]

/-- Any bytes that are long enough are five fields in a row. -/
theorem exists_frame {s : Bytes} (h : 24 ≤ s.length) : ∃ magic ver len q chk, s = frame magic ver len q chk := by
  refine ⟨UInt32.ofNat (toNat (s.take 4)), UInt32.ofNat (toNat ((s.drop 4).take 4)),
    UInt64.ofNat (toNat ((s.drop 8).take 8)), (s.drop 16).take (s.length - 24),
    UInt64.ofNat (toNat (s.drop (s.length - 8))), ?_⟩
  have hend : s.drop (s.length - 8) = (s.drop 16).drop (s.length - 24) := by
    rw [List.drop_drop]
    congr 1
    omega
  rw [frame, putU32_toNat (by rw [List.length_take]; omega),
    putU32_toNat (by rw [List.length_take, List.length_drop]; omega),
    putU64_toNat (by rw [List.length_take, List.length_drop]; omega),
    putU64_toNat (by rw [List.length_drop]; omega), hend, List.append_assoc, List.take_append_drop,
    show s.drop 16 = (s.drop 8).drop 8 by rw [List.drop_drop], List.append_assoc, List.take_append_drop,
    show s.drop 8 = (s.drop 4).drop 4 by rw [List.drop_drop], List.append_assoc, List.take_append_drop,
    List.take_append_drop]

section reads

variable (magic ver : UInt32) (len : UInt64) (q : Bytes) (chk : UInt64)

theorem getU32_of_drop {s b : Bytes} {off : ℕ} {v : UInt32} (h : s.drop off = putU32 v ++ b) : getU32 s off = some v := by
  have hlen := congrArg List.length h
  rw [List.length_drop, List.length_append, length_putU32] at hlen
  rw [getU32, if_neg (by omega), h, ← length_putU32 v, List.take_left, putU32, toNat_ofNat v.toNat_lt,
    UInt32.ofNat_toNat]

theorem getU64_of_drop {s b : Bytes} {off : ℕ} {v : UInt64} (h : s.drop off = putU64 v ++ b) : getU64 s off = some v := by
  have hlen := congrArg List.length h
  rw [List.length_drop, List.length_append, length_putU64] at hlen
  rw [getU64, if_neg (by omega), h, ← length_putU64 v, List.take_left, putU64, toNat_ofNat v.toNat_lt,
    UInt64.ofNat_toNat]

theorem drop_four_frame : (frame magic ver len q chk).drop 4 = putU32 ver ++ (putU64 len ++ (q ++ putU64 chk)) := by
  rw [frame, List.append_assoc, List.append_assoc, List.append_assoc, ← length_putU32 magic, List.drop_left]

theorem drop_eight_frame : (frame magic ver len q chk).drop 8 = putU64 len ++ (q ++ putU64 chk) := by
  rw [show 8 = 4 + 4 from rfl, ← List.drop_drop, drop_four_frame]
  nth_rewrite 1 [← length_putU32 ver]
  rw [List.drop_left]

theorem drop_header_frame : (frame magic ver len q chk).drop 16 = q ++ putU64 chk := by
  rw [show 16 = 8 + 8 from rfl, ← List.drop_drop, drop_eight_frame]
  nth_rewrite 1 [← length_putU64 len]
  rw [List.drop_left]

theorem drop_payload_frame : (frame magic ver len q chk).drop (q.length + 16) = putU64 chk := by
  rw [Nat.add_comm, ← List.drop_drop, drop_header_frame, List.drop_left]

theorem toNat_putU64 (v : UInt64) : UInt64.ofNat (toNat (putU64 v)) = v := by
  rw [putU64, toNat_ofNat v.toNat_lt, UInt64.ofNat_toNat]

end reads

/-- The wrapping sum of the lengths is the length of the file only if nothing
wrapped. -/
theorem length_matches_iff (len : UInt64) (n : ℕ) :
    (len + persistenceHeaderSize + persistenceTrailerSize).toNat = n + 24 ↔
      n + 24 < 2 ^ 64 ∧ len = UInt64.ofNat n := by
  have hlt := len.toNat_lt
  rw [UInt64.toNat_add, UInt64.toNat_add]
  show ((len.toNat + 16) % 2 ^ 64 + 8) % 2 ^ 64 = _ ↔ _
  constructor
  · intro h
    have hn : len.toNat = n := by omega
    exact ⟨by omega, by rw [← hn, UInt64.ofNat_toNat]⟩
  · intro h
    obtain ⟨hn, rfl⟩ := h
    rw [UInt64.toNat_ofNat_of_lt' (by omega : n < 2 ^ 64)]
    omega

/-- What the reader makes of five fields in a row. -/
theorem readFrame_frame (magic ver : UInt32) (len : UInt64) (q : Bytes) (chk : UInt64) (p : Bytes) :
    readFrame (frame magic ver len q chk) = .ok p ↔ q = p ∧ q.length + 24 < 2 ^ 64 ∧ magic = persistenceMagic ∧
      ver = persistenceFrameVersion ∧ len = UInt64.ofNat q.length ∧ chk = checksumOf (framePrefix q) := by
  have hlen := length_frame magic ver len q chk
  have hmagic : getU32 (frame magic ver len q chk) 0 = some magic :=
    getU32_of_drop (b := putU32 ver ++ (putU64 len ++ (q ++ putU64 chk))) (by
      simp only [List.drop_zero, frame, List.append_assoc])
  have hver : getU32 (frame magic ver len q chk) 4 = some ver := getU32_of_drop (drop_four_frame ..)
  have hfield : getU64 (frame magic ver len q chk) 8 = some len := getU64_of_drop (drop_eight_frame ..)
  have hchk : (frame magic ver len q chk).drop (q.length + 24 - 8) = putU64 chk := drop_payload_frame ..
  have hlong : ¬q.length + 24 < 16 + 8 := by omega
  have hbody (hn : q.length + 24 < 2 ^ 64) (hl : len = UInt64.ofNat q.length) :
      ((frame magic ver len q chk).drop 16).take len.toNat = q ∧
        (frame magic ver len q chk).take (persistenceHeaderSize + len).toNat =
          putU32 magic ++ putU32 ver ++ putU64 len ++ q := by
    have hnat : len.toNat = q.length := by rw [hl, UInt64.toNat_ofNat_of_lt' (by omega : q.length < 2 ^ 64)]
    have hend : (persistenceHeaderSize + len).toNat = (putU32 magic ++ putU32 ver ++ putU64 len ++ q).length := by
      simp only [UInt64.toNat_add, List.length_append, length_putU32, length_putU64, hnat]
      show (16 + q.length) % 2 ^ 64 = _
      omega
    refine ⟨by rw [drop_header_frame, hnat, List.take_left], ?_⟩
    rw [hend, frame, List.take_left]
  simp only [readFrame, hlen, hmagic, hver, hfield, show persistenceTrailerSize.toNat = 8 from rfl,
    show persistenceHeaderSize.toNat = 16 from rfl, if_neg hlong, hchk, toNat_putU64]
  constructor
  · intro h
    split at h
    · cases h
    · next hm =>
      split at h
      · cases h
      · next hv =>
        split at h
        · cases h
        · next hl =>
          obtain ⟨hn, hl⟩ := (length_matches_iff len q.length).1 (not_not.1 hl)
          obtain ⟨hpay, hpre⟩ := hbody hn hl
          rw [hpay, hpre, not_not.1 hm, not_not.1 hv, hl] at h
          split at h
          · cases h
          · next hc => exact ⟨Except.ok.inj h, hn, not_not.1 hm, not_not.1 hv, hl, (not_not.1 hc).symm⟩
  · intro h
    obtain ⟨rfl, hn, rfl, rfl, hl, rfl⟩ := h
    obtain ⟨hpay, hpre⟩ := hbody hn hl
    have hmatch := (length_matches_iff len q.length).2 ⟨hn, hl⟩
    rw [hpay, hpre, if_neg (not_not.2 rfl), if_neg (not_not.2 rfl), if_neg (not_not.2 hmatch), hl]
    exact if_neg (not_not.2 rfl)

/-- The reader accepts frames, and answers their payload. -/
theorem readFrame_ok_iff {s p : Bytes} : readFrame s = .ok p ↔ p.length + 24 < 2 ^ 64 ∧ s = writeFrame p := by
  constructor
  · intro h
    have hlong : 24 ≤ s.length := by
      by_contra hshort
      rw [readFrame, if_pos (by show _ < 16 + 8; omega)] at h
      cases h
    obtain ⟨magic, ver, len, q, chk, rfl⟩ := exists_frame hlong
    obtain ⟨rfl, hn, rfl, rfl, rfl, rfl⟩ := (readFrame_frame magic ver len q chk p).1 h
    exact ⟨hn, rfl⟩
  · intro h
    obtain ⟨hn, rfl⟩ := h
    rw [writeFrame_eq, readFrame_frame]
    exact ⟨rfl, hn, rfl, rfl, rfl, rfl⟩

theorem readPersistenceFile_ok_iff {s p : Bytes} :
    readPersistenceFile (some s) = .ok p ↔ p.length + 24 < 2 ^ 64 ∧ s = writeFrame p := by
  cases s with
  | nil =>
    constructor
    · intro h
      cases h
    · intro h
      have hlen := congrArg List.length h.2
      rw [writeFrame_eq, length_frame] at hlen
      cases hlen
  | cons b bs => exact readFrame_ok_iff

/-- **Writing and reading an envelope are inverse to each other**: what was
written is read back, and what is read was written so. -/
theorem frame_inverse (p s : Bytes) :
    (p.length + 24 < 2 ^ 64 → readPersistenceFile (some (writeFrame p)) = .ok p) ∧
      (readPersistenceFile (some s) = .ok p → s = writeFrame p) :=
  ⟨fun h => readPersistenceFile_ok_iff.2 ⟨h, rfl⟩, fun h => (readPersistenceFile_ok_iff.1 h).2⟩

theorem frame_inverse_three : readPersistenceFile (some (writeFrame [1, 2, 3])) = .ok [1, 2, 3] :=
  (frame_inverse [1, 2, 3] []).1 (by decide)

/-! ## Damage -/

/-- The multiplier of a checksum step is odd, so it has an inverse. -/
theorem multiplier_inverse : (1099511628211 : UInt64) * 14886173955864302971 = 1 := by decide

theorem mul_multiplier_inj {x y : UInt64} (h : x * 1099511628211 = y * 1099511628211) : x = y := by
  have hinv := congrArg (· * (14886173955864302971 : UInt64)) h
  simpa only [UInt64.mul_assoc, multiplier_inverse, UInt64.mul_one] using hinv

/-- A step of the checksum forgets nothing of the state before it … -/
theorem fnv1a_left_inj {h h' b : UInt64} (heq : fnv1a h b = fnv1a h' b) : h = h' :=
  UInt64.xor_left_inj b |>.1 (mul_multiplier_inj heq)

/-- … nor of the byte. -/
theorem fnv1a_right_inj {h b b' : UInt64} (heq : fnv1a h b = fnv1a h b') : b = b' :=
  UInt64.xor_right_inj h |>.1 (mul_multiplier_inj heq)

/-- Steps that forget nothing of the state, one after another. -/
theorem foldl_left_inj {σ α : Type} {f : σ → α → σ} (hf : ∀ x y a, f x a = f y a → x = y) (l : List α) {x y : σ}
    (h : l.foldl f x = l.foldl f y) : x = y := by
  induction l generalizing x y with
  | nil => exact h
  | cons a l ih => exact hf x y a (ih h)

/-- Bytes that differ in one place have different checksums. -/
theorem checksumOf_set_ne {l : Bytes} {i : ℕ} {b : UInt8} (hi : i < l.length) (hb : l[i] ≠ b) :
    checksumOf (l.set i b) ≠ checksumOf l := by
  intro h
  have hl : l = l.take i ++ l[i] :: l.drop (i + 1) := by rw [← List.drop_eq_getElem_cons hi, List.take_append_drop]
  rw [List.set_eq_take_append_cons_drop, if_pos hi, congrArg checksumOf hl] at h
  simp only [checksumOf, List.foldl_append, List.foldl_cons] at h
  have hstate := foldl_left_inj (fun x y (c : UInt8) => fnv1a_left_inj (b := c.toUInt64)) _ h
  exact hb (UInt8.toUInt64_inj.1 (fnv1a_right_inj hstate)).symm

/-- What can happen to a file: one byte is another one, or bytes are missing or
added at the end. -/
inductive Damage (file : Bytes) : Bytes → Prop
  | replaced {i : ℕ} {b : UInt8} (hi : i < file.length) (hb : file[i] ≠ b) : Damage file (file.set i b)
  | shortened {n : ℕ} (hn : n < file.length) : Damage file (file.take n)
  | extended {more : Bytes} (hmore : more ≠ []) : Damage file (file ++ more)

theorem framePrefix_inj {p q : Bytes} (h : framePrefix p = framePrefix q) : p = q := by
  have hhead : (putU32 persistenceMagic ++ putU32 persistenceFrameVersion ++ putU64 (UInt64.ofNat p.length)).length =
      (putU32 persistenceMagic ++ putU32 persistenceFrameVersion ++ putU64 (UInt64.ofNat q.length)).length := by
    simp only [List.length_append, length_putU32, length_putU64]
  exact (List.append_inj h hhead).2

theorem length_framePrefix (p : Bytes) : (framePrefix p).length = p.length + 16 := by
  simp only [framePrefix, List.length_append, length_putU32, length_putU64]
  omega

/-- Two frames do not differ in one byte only: the checksum would differ as
well, or the payload not at all. -/
theorem writeFrame_ne_set {p q : Bytes} {i : ℕ} {b : UInt8} (hi : i < (writeFrame p).length)
    (hb : (writeFrame p)[i] ≠ b) : (writeFrame p).set i b ≠ writeFrame q := by
  intro h
  have hlen : (framePrefix p).length = (framePrefix q).length := by
    have hlen := congrArg List.length h
    rw [List.length_set, writeFrame_eq, writeFrame_eq, length_frame, length_frame] at hlen
    rw [length_framePrefix, length_framePrefix]
    omega
  by_cases hpre : i < (framePrefix p).length
  · rw [writeFrame, writeFrame, List.set_append_left i b hpre] at h
    obtain ⟨hfront, hsum⟩ := List.append_inj h (by rw [List.length_set, hlen])
    have hb' : (framePrefix p)[i] ≠ b := by simpa only [writeFrame, List.getElem_append_left hpre] using hb
    refine checksumOf_set_ne hpre hb' ?_
    rw [hfront, ← toNat_putU64 (checksumOf (framePrefix q)), ← hsum, toNat_putU64]
  · have hsame : framePrefix p = framePrefix q := by
      rw [writeFrame, writeFrame, List.set_append_right i b (not_lt.1 hpre)] at h
      exact (List.append_inj h hlen).1
    rw [← framePrefix_inj hsame] at h
    have hget := congrArg (·[i]?) h
    simp only [List.getElem?_set_self hi, List.getElem?_eq_getElem hi, Option.some.injEq] at hget
    exact hb hget.symm

/-- No frame continues another: the length stands in front. -/
theorem writeFrame_append_ne {p q more : Bytes} (hp : p.length + 24 < 2 ^ 64) (hq : q.length + 24 < 2 ^ 64)
    (hmore : more ≠ []) : writeFrame p ++ more ≠ writeFrame q := by
  intro h
  have hlen := congrArg List.length h
  rw [List.length_append, writeFrame_eq, writeFrame_eq, length_frame, length_frame] at hlen
  have hfield : UInt64.ofNat p.length = UInt64.ofNat q.length := by
    have hp8 : getU64 (writeFrame p ++ more) 8 = some (UInt64.ofNat p.length) := by
      refine getU64_of_drop (b := p ++ putU64 (checksumOf (framePrefix p)) ++ more) ?_
      rw [List.drop_append_of_le_length (by rw [writeFrame_eq, length_frame]; omega), writeFrame_eq, drop_eight_frame,
        List.append_assoc]
    have hq8 : getU64 (writeFrame q) 8 = some (UInt64.ofNat q.length) := getU64_of_drop (drop_eight_frame ..)
    rw [h, hq8] at hp8
    exact (Option.some.inj hp8).symm
  have hnat := congrArg UInt64.toNat hfield
  rw [UInt64.toNat_ofNat_of_lt' (by omega : p.length < 2 ^ 64), UInt64.toNat_ofNat_of_lt' (by omega : q.length < 2 ^ 64)]
    at hnat
  have := List.length_pos_iff.2 hmore
  omega

/-- **Damage is noticed.** -/
theorem damage_detected (p s : Bytes) (hp : p.length + 24 < 2 ^ 64) (hs : Damage (writeFrame p) s) :
    ∃ e, readPersistenceFile (some s) = .error e := by
  cases hr : readPersistenceFile (some s) with
  | error e => exact ⟨e, rfl⟩
  | ok q =>
    obtain ⟨hq, rfl⟩ := readPersistenceFile_ok_iff.1 hr
    exfalso
    generalize hs' : writeFrame q = s at hs
    cases hs with
    | replaced hi hb => exact writeFrame_ne_set hi hb hs'.symm
    | @shortened n hn =>
      have hmore : (writeFrame p).drop n ≠ [] := by
        rw [ne_eq, List.drop_eq_nil_iff]
        omega
      refine writeFrame_append_ne hq hp hmore ?_
      rw [hs', List.take_append_drop]
    | extended hmore => exact writeFrame_append_ne hp hq hmore hs'.symm

theorem damage_detected_flip : ∃ e, readPersistenceFile (some ((writeFrame [1, 2, 3]).set 17 9)) = .error e :=
  damage_detected [1, 2, 3] _ (by decide) (.replaced (by decide) (by decide))

end InferenceScheduler
