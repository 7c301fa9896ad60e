/-
This file proves what `mkpimage` writes: for every input it accepts an image of at most
60 KiB, in which the input stands behind the area of barebox, if there is one, with the
header of the boot ROM at `0x40` and the inverted check of all bytes before it in the
last word.
-/

import Buildroot4G.Image.Mkpimage

namespace Buildroot4G.Image

open Shell

/-! ### Buffers -/

theorem setBytes_append {before old new after : List Byte} {offset : ℕ}
    (position : before.length = offset) (same : old.length = new.length) :
    setBytes (before ++ old ++ after) offset new = before ++ new ++ after := by
  subst position
  have rest : (before ++ old ++ after).drop (before.length + new.length) = after := by
    rw [← same, ← List.length_append, List.drop_left]
  rw [setBytes, rest, List.append_assoc before, List.take_left]

/-- Bytes written behind each other are written at once. -/
theorem setBytes_setBytes {buf first second : List Byte} {offset : ℕ}
    (inside : offset ≤ buf.length) :
    setBytes (setBytes buf offset first) (offset + first.length) second =
      setBytes buf offset (first ++ second) := by
  have head : offset + first.length = (buf.take offset ++ first).length := by
    rw [List.length_append, List.length_take, Nat.min_eq_left inside]
  have rest : (setBytes buf offset first).drop (offset + first.length + second.length) =
      buf.drop (offset + (first ++ second).length) := by
    rw [setBytes, head, ← List.drop_drop, List.drop_left, ← head, List.drop_drop,
      List.length_append, Nat.add_assoc]
  rw [setBytes, rest, setBytes, setBytes, head, List.take_left, List.append_assoc (buf.take offset)]

theorem setBytes_nil (buf : List Byte) (offset : ℕ) : setBytes buf offset [] = buf := by
  rw [setBytes, List.append_nil]
  exact List.take_append_drop offset buf

/-- `read_full` reads the bytes it is asked for, whatever each call transfers. -/
theorem readFull_eq (chunk : ℕ → ℕ) (call : ℕ) (file buf : List Byte) (offset size : ℕ)
    (inside : offset + min size file.length ≤ buf.length) :
    readFull chunk call file buf offset size = setBytes buf offset (file.take size) := by
  fun_induction readFull chunk call file buf offset size with
  | case1 call file buf offset => rw [List.take_zero, setBytes_nil]
  | case2 call file buf offset size nonzero now none =>
    have ended : file.length = 0 := by omega
    rw [List.length_eq_zero_iff.mp ended, List.take_nil, setBytes_nil]
  | case3 call file buf offset size nonzero now some inductionHypothesis =>
    have transferred : (file.take now).length = now := by
      rw [List.length_take]
      omega
    have together : file.take now ++ (file.drop now).take (size - now) = file.take size := by
      rw [← List.take_add]
      congr 1
      omega
    rw [inductionHypothesis, ← together]
    · have adjacent := @setBytes_setBytes buf (file.take now) ((file.drop now).take (size - now))
        offset (by omega)
      rwa [transferred] at adjacent
    · rw [setBytes, List.length_append, List.length_append, List.length_take, transferred,
        List.length_drop, List.length_drop]
      omega

/-- `write_full` writes the bytes it is asked to, whatever each call transfers. -/
theorem writeFull_eq (chunk : ℕ → ℕ) (call : ℕ) (buf written : List Byte) (size : ℕ) :
    writeFull chunk call buf written size = written ++ buf.take size := by
  fun_induction writeFull chunk call buf written size with
  | case1 call buf written => rw [List.take_zero, List.append_nil]
  | case2 call buf written size nonzero now inductionHypothesis =>
    have together : buf.take now ++ (buf.drop now).take (size - now) = buf.take size := by
      rw [← List.take_add]
      congr 1
      omega
    rw [inductionHypothesis, List.append_assoc, together]

/-! ### The check word -/

theorem crcTable_eq (byte : Byte) : crcTable.getD byte.toNat 0 = Crc.word 0x04c11db7 byte := by
  have all : ∀ index : Fin 256,
      crcTable.getD index 0 = Crc.word 0x04c11db7 (BitVec.ofFin index) := by decide +kernel
  exact all byte.toFin

theorem crc32_eq (crc : Word) (buf : List Byte) :
    crc32 crc buf = Crc.crc 0x04c11db7 crc buf := by
  induction buf generalizing crc with
  | nil => rfl
  | cons byte rest inductionHypothesis =>
    have index : ((crc >>> 24 ^^^ byte.setWidth 32) &&& 0xff).toNat =
        ((crc >>> 24).setWidth 8 ^^^ byte).toNat := by
      have mask : (0xff : Word).toNat = 2 ^ 8 - 1 := rfl
      rw [BitVec.toNat_and, mask, Nat.and_two_pow_sub_one_eq_mod, BitVec.toNat_xor,
        BitVec.toNat_xor, Nat.xor_mod_two_pow, BitVec.toNat_setWidth, BitVec.toNat_setWidth]
      congr 1
      rw [Nat.mod_eq_of_lt (by omega)]
      omega
    rw [crc32, inductionHypothesis, index, Crc.crc, Crc.crc, List.foldl_cons,
      Crc.enter_eq_word _ (by decide), crcTable_eq]

/-- `crc32` divides the message bit by bit, the most significant bit first, and goes on where the
check of the bytes before ended. -/
theorem crc32_serial (crc : Word) (buf : List Byte) :
    crc32 crc buf = Crc.serial 0x04c11db7 crc buf ∧
      ∀ more, crc32 crc (buf ++ more) = crc32 (crc32 crc buf) more := by
  constructor
  · rw [crc32_eq, Crc.crc_eq_serial _ (by decide)]
  · intro more
    rw [crc32_eq, crc32_eq, crc32_eq, Crc.crc_append]

example : crc32 0xffffffff [0x31, 0x32, 0x33, 0x34, 0x35, 0x36, 0x37, 0x38, 0x39] ^^^ 0xffffffff =
    0xfc891918 := by
  rfl

/-! ### The parts of the image -/

/-- What stands before the input: with `-b` the 512 bytes that start with the header of barebox. -/
def area (barebox : Bool) : List Byte :=
  if barebox then bbHeader.flatMap Word.bytes ++ List.replicate 432 0 else []

/-- The area and the input, filled with zeros up to a multiple of four. -/
def padded (barebox : Bool) (infile : List Byte) : List Byte :=
  area barebox ++ infile ++ List.replicate (padding infile.length) 0

theorem length_bbHeader : (bbHeader.flatMap Word.bytes).length = 80 := rfl

theorem length_area (barebox : Bool) : (area barebox).length = addSize barebox := by
  cases barebox
  · rfl
  · rw [area, if_pos rfl, List.length_append, length_bbHeader, List.length_replicate, addSize,
      if_pos rfl]

theorem and_three (size : ℕ) : size &&& 3 = size % 4 := Nat.and_two_pow_sub_one_eq_mod size 2

theorem padding_spec (size : ℕ) : padding size < 4 ∧ (size + padding size) % 4 = 0 := by
  rw [padding, and_three]
  split <;> omega

theorem length_padded (barebox : Bool) (infile : List Byte) :
    (padded barebox infile).length =
      addSize barebox + infile.length + padding infile.length := by
  rw [padded, List.length_append, List.length_append, length_area, List.length_replicate]

theorem length_padded_mod (barebox : Bool) (infile : List Byte) :
    (padded barebox infile).length % 4 = 0 := by
  have multiple := (padding_spec infile.length).2
  rw [length_padded]
  cases barebox
  · rw [addSize, if_neg Bool.false_ne_true]
    omega
  · rw [addSize, if_pos rfl]
    omega

/-- The buffer before the header is added. -/
theorem buffer_eq (barebox : Bool) (readChunk : ℕ → ℕ) (infile : List Byte) :
    (let buf := readFull readChunk 0 infile
        (List.replicate (infile.length + 4 + addSize barebox + padding infile.length) 0)
        (addSize barebox) infile.length
      if barebox then setBytes buf 0 (bbHeader.flatMap Word.bytes) else buf) =
      padded barebox infile ++ List.replicate 4 0 := by
  have split : ∀ add : ℕ, List.replicate (infile.length + 4 + add + padding infile.length) 0 =
      List.replicate add (0 : Byte) ++ List.replicate infile.length 0 ++
        (List.replicate (padding infile.length) 0 ++ List.replicate 4 0) := by
    intro add
    rw [List.replicate_append_replicate, List.replicate_append_replicate,
      List.replicate_append_replicate]
    congr 1
    omega
  have read : readFull readChunk 0 infile
      (List.replicate (infile.length + 4 + addSize barebox + padding infile.length) 0)
      (addSize barebox) infile.length =
      List.replicate (addSize barebox) 0 ++ infile ++
        (List.replicate (padding infile.length) 0 ++ List.replicate 4 0) := by
    rw [readFull_eq, List.take_length, split, setBytes_append]
    · exact List.length_replicate
    · exact List.length_replicate
    · rw [List.length_replicate]
      omega
  change (if barebox then setBytes (readFull _ _ _ _ _ _) 0 _ else readFull _ _ _ _ _ _) = _
  rw [read]
  cases barebox
  · rw [if_neg Bool.false_ne_true, padded, area, if_neg Bool.false_ne_true]
    rw [addSize, if_neg Bool.false_ne_true, List.replicate_zero]
    simp only [List.nil_append, List.append_assoc]
  · have room : List.replicate (addSize true) (0 : Byte) ++ infile ++
        (List.replicate (padding infile.length) 0 ++ List.replicate 4 0) =
        [] ++ List.replicate 80 0 ++ (List.replicate 432 0 ++ infile ++
          (List.replicate (padding infile.length) 0 ++ List.replicate 4 0)) := by
      have parts : List.replicate (addSize true) (0 : Byte) =
          List.replicate 80 0 ++ List.replicate 432 0 := by
        rw [List.replicate_append_replicate, addSize, if_pos rfl]
      rw [parts]
      simp only [List.nil_append, List.append_assoc]
    rw [if_pos rfl, room, padded, area, if_pos rfl, setBytes_append]
    · simp only [List.nil_append, List.append_assoc]
    · rfl
    · rw [List.length_replicate, length_bbHeader]

/-- The image: the padded input with the header in it, and the check word. -/
def withHeader (body : List Byte) (length : ℕ) : List Byte :=
  let fields := headerFields length
  let sum := checksum fields
  body.take 0x40 ++ (fields ++ [sum.setWidth 8, (sum >>> 8).setWidth 8]) ++ body.drop 0x4c

theorem length_headerFields (length : ℕ) : (headerFields length).length = 10 := rfl

theorem length_withHeader {body : List Byte} (large : 0x4c ≤ body.length) (length : ℕ) :
    (withHeader body length).length = body.length := by
  rw [withHeader, List.length_append, List.length_append, List.length_append, List.length_take,
    List.length_drop, length_headerFields]
  simp
  omega

section Header

variable {body : List Byte} (large : 0x4c ≤ body.length) (tail : List Byte) (length : ℕ)

include large

theorem setBytes_fields :
    setBytes (body ++ tail) 0x40 (headerFields length) =
      body.take 0x40 ++ headerFields length ++ (body.drop 0x4a ++ tail) := by
  have parts : body.take 0x40 ++ (body.drop 0x40).take 10 ++ body.drop 0x4a = body := by
    rw [← List.take_add, List.take_append_drop]
  have split : body ++ tail =
      body.take 0x40 ++ (body.drop 0x40).take 10 ++ (body.drop 0x4a ++ tail) := by
    rw [← List.append_assoc, parts]
  rw [split, setBytes_append]
  · rw [List.length_take]
    omega
  · rw [List.length_take, List.length_drop, length_headerFields]
    omega

/-- The bytes that are summed are the fields of the header. -/
theorem take_fields (after : List Byte) :
    ((body.take 0x40 ++ headerFields length ++ after).drop 0x40).take 10 =
      headerFields length := by
  have position : (body.take 0x40).length = 0x40 := by
    rw [List.length_take]
    omega
  rw [List.append_assoc, List.drop_left' position, List.take_left' (length_headerFields length)]

theorem setBytes_sums {sums : List Byte} (two : sums.length = 2) :
    setBytes (body.take 0x40 ++ headerFields length ++ (body.drop 0x4a ++ tail)) 0x4a sums =
      body.take 0x40 ++ (headerFields length ++ sums) ++ body.drop 0x4c ++ tail := by
  have split : body.take 0x40 ++ headerFields length ++ (body.drop 0x4a ++ tail) =
      body.take 0x40 ++ headerFields length ++ (body.drop 0x4a).take 2 ++
        (body.drop 0x4c ++ tail) := by
    have parts : body.drop 0x4a = (body.drop 0x4a).take 2 ++ body.drop 0x4c := by
      conv_lhs => rw [← List.take_append_drop 2 (body.drop 0x4a), List.drop_drop]
    conv_lhs => rw [parts]
    simp only [List.append_assoc]
  rw [split, setBytes_append]
  · simp only [List.append_assoc]
  · rw [List.length_append, List.length_take, length_headerFields]
    omega
  · rw [List.length_take, List.length_drop, two]
    omega

end Header

theorem withHeader_eq (body : List Byte) (length : ℕ) :
    withHeader body length = body.take 0x40 ++ (headerFields length ++
      [(checksum (headerFields length)).setWidth 8,
        (checksum (headerFields length) >>> 8).setWidth 8]) ++ body.drop 0x4c := rfl

/-- What `add_socfpga_header` makes of a buffer with room for the check word. -/
theorem addSocfpgaHeader_eq {body tail : List Byte} (large : 0x4c ≤ body.length)
    (aligned : body.length % 4 = 0) (room : tail.length = 4) :
    addSocfpgaHeader (body ++ tail) (body.length + 4) =
      .ok (withHeader body ((body.length + 4) / 4) ++ Word.bytes
        (~~~Crc.crc 0x04c11db7 0xffffffff (withHeader body ((body.length + 4) / 4)))) := by
  have words : (body.length + 4) >>> 2 = (body.length + 4) / 4 := Nat.shiftRight_eq_div_pow _ 2
  have multiple : ¬(body.length + 4) &&& 3 ≠ 0 := by
    rw [and_three]
    omega
  rw [addSocfpgaHeader]
  simp only [if_neg multiple, words]
  generalize (body.length + 4) / 4 = length
  rw [setBytes_fields large, take_fields large, setBytes_sums large tail length rfl,
    ← withHeader_eq, Nat.add_sub_cancel]
  have sized := length_withHeader large length
  generalize withHeader body length = image at sized
  have word : ∀ check : Word, check ^^^ 0xffffffff = ~~~check := fun check => by
    rw [← BitVec.xor_allOnes]
    rfl
  have written := @setBytes_append image tail (Word.bytes (~~~Crc.crc 0x04c11db7 0xffffffff image))
    [] body.length sized room
  rw [List.append_nil, List.append_nil] at written
  rw [List.take_left' sized, crc32_eq, word, written]

/-! ### The image as a whole -/

/-- The sizes of the input that are accepted. -/
def Accepted (barebox : Bool) (size : ℕ) : Prop := minSize barebox ≤ size ∧ size ≤ maxSize barebox

instance (barebox : Bool) (size : ℕ) : Decidable (Accepted barebox size) :=
  inferInstanceAs (Decidable (_ ∧ _))

/-- The number that two bytes are, the first one being the lower. -/
def littleEndian (low high : Byte) : ℕ := low.toNat + 2 ^ 8 * high.toNat

/-- An image the boot ROM accepts, with the input in it. -/
structure IsImage (barebox : Bool) (infile image : List Byte) : Prop where
  length : image.length = (padded barebox infile).length + 4
  aligned : image.length % 4 = 0
  fits : image.length ≤ 60 * 1024
  kept : ∀ index < (padded barebox infile).length, ¬(0x40 ≤ index ∧ index < 0x4c) →
    image[index]? = (padded barebox infile)[index]?
  validation : (image.drop 0x40).take 4 = validationWord.bytes
  programLength : littleEndian (image.getD 0x46 0) (image.getD 0x47 0) = image.length / 4
  checksum : littleEndian (image.getD 0x4a 0) (image.getD 0x4b 0) =
    (((image.drop 0x40).take 10).map BitVec.toNat).sum % 2 ^ 16
  crc : image.drop (image.length - 4) =
    Word.bytes (~~~Crc.crc 0x04c11db7 0xffffffff (image.take (image.length - 4)))

/-! ### The numbers in the header -/

theorem littleEndian_length (length : ℕ) :
    littleEndian (BitVec.ofNat 8 (length &&& 0xff)) (BitVec.ofNat 8 (length >>> 8 &&& 0xff)) =
      length % 2 ^ 16 := by
  have low : ∀ number : ℕ, number &&& 0xff = number % 2 ^ 8 :=
    fun number => Nat.and_two_pow_sub_one_eq_mod number 8
  rw [littleEndian, BitVec.toNat_ofNat, BitVec.toNat_ofNat, low, low, Nat.shiftRight_eq_div_pow]
  omega

theorem littleEndian_word (word : Word) :
    littleEndian (word.setWidth 8) ((word >>> 8).setWidth 8) = word.toNat % 2 ^ 16 := by
  rw [littleEndian, BitVec.toNat_setWidth, BitVec.toNat_setWidth, BitVec.toNat_ushiftRight,
    Nat.shiftRight_eq_div_pow]
  omega

theorem toNat_checksum (bytes : List Byte) :
    (checksum bytes).toNat = (bytes.map BitVec.toNat).sum % 2 ^ 32 := by
  have general : ∀ (rest : List Byte) (sum : Word),
      (rest.foldl (fun sum byte => sum + byte.setWidth 32) sum).toNat =
        (sum.toNat + (rest.map BitVec.toNat).sum) % 2 ^ 32 := by
    intro rest
    induction rest with
    | nil => exact fun sum => (Nat.mod_eq_of_lt sum.isLt).symm
    | cons byte rest inductionHypothesis =>
      intro sum
      have small := byte.isLt
      rw [List.foldl_cons, inductionHypothesis, BitVec.toNat_add, BitVec.toNat_setWidth,
        List.map_cons, List.sum_cons]
      omega
  rw [checksum, general bytes 0]
  exact congrArg (· % 2 ^ 32) (Nat.zero_add _)

/-- The image from the header on. -/
theorem drop_withHeader {body : List Byte} (large : 0x4c ≤ body.length) (length : ℕ)
    (tail : List Byte) :
    (withHeader body length ++ tail).drop 0x40 = headerFields length ++
      ([(checksum (headerFields length)).setWidth 8,
        (checksum (headerFields length) >>> 8).setWidth 8] ++ (body.drop 0x4c ++ tail)) := by
  have position : (body.take 0x40).length = 0x40 := by
    rw [List.length_take]
    omega
  rw [withHeader_eq]
  simp only [List.append_assoc]
  exact List.drop_left' position

theorem getD_drop (image : List Byte) (start offset : ℕ) :
    image.getD (start + offset) 0 = (image.drop start).getD offset 0 := by
  rw [List.getD_eq_getElem?_getD, List.getD_eq_getElem?_getD, List.getElem?_drop]

/-- Outside the header the body is as it was. -/
theorem getElem?_withHeader {body : List Byte} (large : 0x4c ≤ body.length) (length : ℕ)
    {index : ℕ} (outside : ¬(0x40 ≤ index ∧ index < 0x4c)) :
    (withHeader body length)[index]? = body[index]? := by
  have position : (body.take 0x40).length = 0x40 := by
    rw [List.length_take]
    omega
  have whole : withHeader body length = body.take 0x40 ++ ((headerFields length ++
      [(checksum (headerFields length)).setWidth 8,
        (checksum (headerFields length) >>> 8).setWidth 8]) ++ body.drop 0x4c) := by
    rw [withHeader_eq, List.append_assoc]
  rw [whole]
  by_cases before : index < 0x40
  · rw [List.getElem?_append_left (by rw [position]; exact before), List.getElem?_take_of_lt before]
  · have header : (headerFields length ++ [(checksum (headerFields length)).setWidth 8,
        (checksum (headerFields length) >>> 8).setWidth 8]).length = 12 := rfl
    rw [List.getElem?_append_right (by omega), position,
      List.getElem?_append_right (by rw [header]; omega), header, List.getElem?_drop]
    congr 1
    omega

section Whole

variable {barebox : Bool} {infile : List Byte}

theorem le_length_padded (accepted : Accepted barebox infile.length) :
    0x4c ≤ (padded barebox infile).length := by
  obtain ⟨small, _⟩ := accepted
  rw [length_padded]
  cases barebox
  · rw [minSize, if_neg Bool.false_ne_true] at small
    omega
  · rw [addSize, if_pos rfl]
    omega

theorem length_padded_le (accepted : Accepted barebox infile.length) :
    (padded barebox infile).length + 4 ≤ 60 * 1024 := by
  obtain ⟨_, large⟩ := accepted
  obtain ⟨few, multiple⟩ := padding_spec infile.length
  rw [length_padded]
  rw [maxSize, maxImageSize] at large
  cases barebox
  · rw [if_neg Bool.false_ne_true] at large
    rw [addSize, if_neg Bool.false_ne_true]
    omega
  · rw [if_pos rfl] at large
    rw [addSize, if_pos rfl]
    omega

/-- What `mkpimage` writes for an input of an accepted size. -/
theorem mkpimage_eq_ok (accepted : Accepted barebox infile.length) (readChunk writeChunk : ℕ → ℕ) :
    mkpimage barebox readChunk writeChunk infile =
      .ok (withHeader (padded barebox infile) (((padded barebox infile).length + 4) / 4) ++
        Word.bytes (~~~Crc.crc 0x04c11db7 0xffffffff
          (withHeader (padded barebox infile) (((padded barebox infile).length + 4) / 4)))) := by
  have large := le_length_padded accepted
  have size : infile.length + 4 + addSize barebox + padding infile.length =
      (padded barebox infile).length + 4 := by
    rw [length_padded]
    omega
  have buffer := buffer_eq barebox readChunk infile
  have room : (List.replicate 4 (0 : Byte)).length = 4 := List.length_replicate
  have header := addSocfpgaHeader_eq large (length_padded_mod barebox infile) room
  rw [mkpimage, if_neg (Nat.not_lt.mpr accepted.1), if_neg (Nat.not_lt.mpr accepted.2)]
  simp only [] at buffer ⊢
  rw [buffer, size, header]
  refine congrArg Except.ok ?_
  rw [writeFull_eq, List.nil_append, List.take_of_length_le]
  rw [List.length_append, length_withHeader large]
  exact Nat.le_refl _

theorem isImage_withHeader (accepted : Accepted barebox infile.length) {length : ℕ}
    (words : length = ((padded barebox infile).length + 4) / 4) {check : Word}
    (isCheck : check =
      ~~~Crc.crc 0x04c11db7 0xffffffff (withHeader (padded barebox infile) length)) :
    IsImage barebox infile (withHeader (padded barebox infile) length ++ check.bytes) := by
  have large := le_length_padded accepted
  have fits := length_padded_le accepted
  have multiple := length_padded_mod barebox infile
  have sized := length_withHeader large length
  have whole : (withHeader (padded barebox infile) length ++ check.bytes).length =
      (padded barebox infile).length + 4 := by
    rw [List.length_append, sized]
    rfl
  have header := drop_withHeader large length check.bytes
  refine ⟨whole, by omega, by omega, fun index below outside => ?_, ?_, ?_, ?_, ?_⟩
  · rw [List.getElem?_append_left (by omega), getElem?_withHeader large length outside]
  · rw [header]
    rfl
  · rw [getD_drop _ 0x40 6, getD_drop _ 0x40 7, header, whole, ← words]
    refine (littleEndian_length length).trans (Nat.mod_eq_of_lt ?_)
    omega
  · rw [getD_drop _ 0x40 10, getD_drop _ 0x40 11, header,
      List.take_left' (length_headerFields length)]
    refine (littleEndian_word (checksum (headerFields length))).trans ?_
    rw [toNat_checksum]
    omega
  · rw [whole, Nat.add_sub_cancel, ← sized, List.drop_left, List.take_left, ← isCheck]

end Whole

/-- For every input of an accepted size, with and without the header of barebox, `mkpimage`
writes an image the boot ROM accepts, however its reads and writes are cut; inputs of other sizes
it rejects. -/
theorem mkpimage_image (barebox : Bool) (readChunk writeChunk : ℕ → ℕ) (infile : List Byte) :
    (Accepted barebox infile.length →
      ∃ image, mkpimage barebox readChunk writeChunk infile = .ok image ∧
        IsImage barebox infile image) ∧
    (¬Accepted barebox infile.length →
      ∃ message, mkpimage barebox readChunk writeChunk infile = .error message) := by
  constructor
  · intro accepted
    exact ⟨_, mkpimage_eq_ok accepted readChunk writeChunk, isImage_withHeader accepted rfl rfl⟩
  · intro refused
    rw [mkpimage]
    by_cases small : infile.length < minSize barebox
    · exact ⟨_, if_pos small⟩
    · have big : infile.length > maxSize barebox := by
        by_contra fits
        exact refused ⟨Nat.not_lt.mp small, Nat.not_lt.mp fits⟩
      exact ⟨_, (if_neg small).trans (if_pos big)⟩

/-- `mkpimage_image` on the smallest inputs, with calls that transfer one byte each, and on an
input that is too small. -/
theorem mkpimage_image_smallest :
    (∃ image, mkpimage false (fun _ => 1) (fun _ => 1) (List.replicate 80 0) = .ok image ∧
        IsImage false (List.replicate 80 0) image) ∧
      (∃ image, mkpimage true (fun _ => 1) (fun _ => 1) [] = .ok image ∧ IsImage true [] image) ∧
      ∃ message, mkpimage false (fun _ => 1) (fun _ => 1) [] = .error message :=
  ⟨(mkpimage_image false _ _ _).1 (by decide), (mkpimage_image true _ _ _).1 (by decide),
    (mkpimage_image false _ _ _).2 (by decide)⟩

end Buildroot4G.Image
