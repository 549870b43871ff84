/- source: typefacts/src/producer/writer.rs, typefacts/src/v3.rs -/

import Mathlib.Data.String.Basic
import SolidChecker.Foundation.Codec

namespace SolidChecker.Wire

open Foundation Foundation.Codec List

def bytesOf (text : String) : Bytes := text.toByteArray.data.toList

section

def u64 : Reader ℕ :=
  VarintFaults.read
    { exhausted := fun _ => "packed table is truncated"
      overflow := "packed table integer overflow"
      padded := some "packed table integer is not shortest-form encoded" }

def raw (length : ℕ) : Reader Bytes := Codec.raw "packed table is truncated" length

def packedCollectionLimit : ℕ := 1000000

def count (label : String) : Reader ℕ := do
  let count ← u64
  refuseIf (packedCollectionLimit < count) ("packed " ++ label ++ " count " ++ toString count ++
    " exceeds " ++ toString packedCollectionLimit)
  pure count

private theorem reads_u64 (value : ℕ) : Reads (value < 2 ^ 64) u64 (uvarint value) value :=
  reads_uvarint _ value

private theorem reads_count (label : String) (length : ℕ) :
    Reads (length ≤ packedCollectionLimit) (count label) (uvarint length) length := by
  refine (reads_u64 length).last (fun few => few.trans_lt (by decide)) ?_
  exact (reads_refuseIf _ _).check (fun few => not_lt.mpr few) (.pure length)

private theorem count_le {label : String} {input rest : Bytes} {length : ℕ}
    (read : (count label).run input = .ok (length, rest)) : length ≤ packedCollectionLimit := by
  obtain ⟨length, middle, -, checked⟩ := of_bind_ok read
  obtain ⟨_, left, within, last⟩ := of_bind_ok checked
  cases last
  exact not_lt.mp (of_refuseIf_ok within)

end

section

def hexDigit (half : ℕ) : Char := "0123456789abcdef".toList.getD half '0'

def hexPair (byte : UInt8) : List Char := [hexDigit (byte.toNat / 16), hexDigit (byte.toNat % 16)]

def hexValue (digit : UInt8) : Option UInt8 :=
  if 48 ≤ digit ∧ digit ≤ 57 then some (digit - 48)
  else if 97 ≤ digit ∧ digit ≤ 102 then some (digit - 97 + 10)
  else if 65 ≤ digit ∧ digit ≤ 70 then some (digit - 65 + 10)
  else none

def packHex : Bytes → Option Bytes
  | first :: second :: rest => do
      let high ← hexValue first
      let low ← hexValue second
      let packed ← packHex rest
      pure ((high <<< 4 ||| low) :: packed)
  | _ => some []

def upperDigit (digit : UInt8) : Bool := decide (65 ≤ digit ∧ digit ≤ 70)

def lowered (digit : UInt8) : UInt8 := if upperDigit digit then digit + 32 else digit

private theorem hexValue_facts : ∀ digit : Fin 256, ∀ value ∈ hexValue (UInt8.ofNat digit),
    value.toNat < 16 ∧
      String.utf8EncodeChar (hexDigit value.toNat) = [lowered (UInt8.ofNat digit)] := by
  decide +kernel

private theorem hexValue_spec {digit value : UInt8} (known : hexValue digit = some value) :
    value.toNat < 16 ∧ String.utf8EncodeChar (hexDigit value.toNat) = [lowered digit] := by
  have facts := hexValue_facts ⟨digit.toNat, digit.toNat_lt⟩ value
  rw [show UInt8.ofNat (⟨digit.toNat, digit.toNat_lt⟩ : Fin 256).val = digit from
    UInt8.ofNat_toNat] at facts
  exact facts known

private theorem halves_facts : ∀ high low : Fin 16,
    (UInt8.ofNat high <<< 4 ||| UInt8.ofNat low).toNat = 16 * high.val + low.val := by
  decide +kernel

private theorem halves_spec {high low : UInt8} (highSmall : high.toNat < 16) (lowSmall : low.toNat < 16) :
    (high <<< 4 ||| low).toNat = 16 * high.toNat + low.toNat := by
  have facts := halves_facts ⟨high.toNat, highSmall⟩ ⟨low.toNat, lowSmall⟩
  rw [UInt8.ofNat_toNat, UInt8.ofNat_toNat] at facts
  exact facts

private theorem packHex_spec {digits digest : Bytes} (even : 2 ∣ digits.length)
    (packs : packHex digits = some digest) :
    (digest.flatMap hexPair).flatMap String.utf8EncodeChar = digits.map lowered ∧
      digest.length * 2 = digits.length := by
  induction digits using packHex.induct generalizing digest with
  | case1 first second rest ih =>
    obtain ⟨high, highValue, packs⟩ := Option.bind_eq_some_iff.mp packs
    obtain ⟨low, lowValue, packs⟩ := Option.bind_eq_some_iff.mp packs
    obtain ⟨packed, restPacks, whole⟩ := Option.bind_eq_some_iff.mp packs
    cases whole
    obtain ⟨highSmall, highSpelled⟩ := hexValue_spec highValue
    obtain ⟨lowSmall, lowSpelled⟩ := hexValue_spec lowValue
    have fewer : 2 ∣ rest.length := by
      rw [length_cons, length_cons] at even
      omega
    obtain ⟨spelled, counted⟩ := ih fewer restPacks
    have upper : (16 * high.toNat + low.toNat) / 16 = high.toNat := by omega
    have lower : (16 * high.toNat + low.toNat) % 16 = low.toNat := by omega
    constructor
    · rw [flatMap_cons, hexPair, halves_spec highSmall lowSmall, upper, lower,
        flatMap_append, spelled, flatMap_cons, flatMap_cons, flatMap_nil,
        highSpelled, lowSpelled]
      rfl
    · rw [length_cons, length_cons, length_cons]
      omega
  | case2 digits short =>
    match digits with
    | [] =>
      cases packs
      exact ⟨rfl, rfl⟩
    | [_] =>
      rw [length_singleton] at even
      omega
    | first :: second :: rest => exact absurd rfl (short first second rest)

end

section

def stringPrefixCoded : ℕ := 0
def stringHashedSymbol : ℕ := 1
def hashedSymbolPrefix : String := "symbol:h:"
def hashedSymbolDigestBytes : ℕ := 12

def packedHashedSymbol (symbol : String) : Option Bytes :=
  match (bytesOf symbol).dropPrefix? (bytesOf hashedSymbolPrefix) with
  | none => none
  | some digits => if digits.length ≠ hashedSymbolDigestBytes * 2 then none else packHex digits

def commonPrefix : Bytes → Bytes → ℕ
  | left :: lefts, right :: rights => if left = right then commonPrefix lefts rights + 1 else 0
  | _, _ => 0

def packString (previous : Bytes) (value : String) : Bytes :=
  match packedHashedSymbol value with
  | some digest => uvarint stringHashedSymbol ++ digest
  | none =>
    let shared := commonPrefix previous (bytesOf value)
    let suffix := (bytesOf value).drop shared
    uvarint stringPrefixCoded ++ (uvarint shared ++ (uvarint suffix.length ++ suffix))

def windowAfter (previous : Bytes) (value : String) : Bytes :=
  match packedHashedSymbol value with
  | some _ => previous
  | none => bytesOf value

def packStrings : Bytes → List String → Bytes := written packString windowAfter

def packedDictionary (values : List String) : Bytes :=
  uvarint values.length ++ packStrings [] values

def appendPackedDictionary (frame : Bytes) (values : List String) : Bytes :=
  frame ++ packedDictionary values

def hashedSymbol (digest : Bytes) : String :=
  hashedSymbolPrefix ++ String.ofList (digest.flatMap hexPair)

def packedString (previous : Bytes) : Reader (String × Bytes) := do
  let tag ← u64
  if tag = stringPrefixCoded then do
    let shared ← u64
    refuseIf (previous.length < shared) "packed string prefix exceeds previous string"
    let suffixLength ← u64
    let suffix ← raw suffixLength
    let bytes := previous.take shared ++ suffix
    match String.fromUTF8? ⟨bytes.toArray⟩ with
    | some value => pure (value, bytes)
    | none => throw "packed string is not UTF-8"
  else if tag = stringHashedSymbol then do
    let digest ← raw hashedSymbolDigestBytes
    pure (hashedSymbol digest, previous)
  else throw ("packed string has unknown encoding tag " ++ toString tag)

def decodePackedStrings : Reader (List String) := do
  let count ← count "strings"
  times packedString count []

end

private theorem bytesOf_injective {left right : String} (same : bytesOf left = bytesOf right) :
    left = right := by
  apply String.toByteArray_inj.mp
  apply ByteArray.ext
  exact Array.toList_inj.mp same

private theorem bytesOf_append (left right : String) :
    bytesOf (left ++ right) = bytesOf left ++ bytesOf right := by
  unfold bytesOf
  rw [String.toByteArray_append]
  simp

private theorem bytesOf_ofList (letters : List Char) :
    bytesOf (String.ofList letters) = letters.flatMap String.utf8EncodeChar := by
  unfold bytesOf
  simp [List.utf8Encode]

private theorem fromUTF8_bytesOf (value : String) :
    String.fromUTF8? ⟨(bytesOf value).toArray⟩ = some value := by
  have same : ⟨(bytesOf value).toArray⟩ = value.toByteArray := by
    apply ByteArray.ext
    exact Array.toArray_toList
  rw [same]
  exact dif_pos value.isValidUTF8

def respelled (value : String) : String :=
  match packedHashedSymbol value with
  | some digest => hashedSymbol digest
  | none => value

private theorem packedHashedSymbol_spec {value : String} {digest : Bytes}
    (packs : packedHashedSymbol value = some digest) :
    ∃ digits, bytesOf value = bytesOf hashedSymbolPrefix ++ digits ∧
      bytesOf (hashedSymbol digest) = bytesOf hashedSymbolPrefix ++ digits.map lowered ∧
      digest.length = hashedSymbolDigestBytes := by
  unfold packedHashedSymbol at packs
  split at packs
  · exact nomatch packs
  · rename_i digits stripped
    split at packs
    · exact nomatch packs
    · rename_i sized
      have length : digits.length = hashedSymbolDigestBytes * 2 := not_not.mp sized
      have even : 2 ∣ digits.length := ⟨hashedSymbolDigestBytes, by rw [length, Nat.mul_comm]⟩
      obtain ⟨spelled, counted⟩ := packHex_spec even packs
      obtain ⟨front, whole, same⟩ := dropPrefix?_eq_some_iff.mp stripped
      rw [eq_of_beq same] at whole
      refine ⟨digits, whole, ?_, by omega⟩
      rw [hashedSymbol, bytesOf_append, bytesOf_ofList, spelled]

private theorem commonPrefix_spec (left right : Bytes) :
    commonPrefix left right ≤ left.length ∧ commonPrefix left right ≤ right.length ∧
      left.take (commonPrefix left right) = right.take (commonPrefix left right) := by
  induction left, right using commonPrefix.induct with
  | case1 lefts left rights ih =>
    have shared : commonPrefix (left :: lefts) (left :: rights) = commonPrefix lefts rights + 1 :=
      if_pos rfl
    rw [shared, length_cons, length_cons, take_succ_cons, take_succ_cons]
    exact ⟨Nat.succ_le_succ ih.1, Nat.succ_le_succ ih.2.1, congrArg _ ih.2.2⟩
  | case2 left lefts right rights differ =>
    have none : commonPrefix (left :: lefts) (right :: rights) = 0 := if_neg differ
    rw [none]
    exact ⟨Nat.zero_le _, Nat.zero_le _, rfl⟩
  | case3 left right short =>
    have none : commonPrefix left right = 0 := by
      unfold commonPrefix
      split
      · exact absurd rfl (short _ _ _ _ rfl)
      · rfl
    rw [none]
    exact ⟨Nat.zero_le _, Nat.zero_le _, rfl⟩

private theorem reads_packedString (previous : Bytes) (value : String) :
    Reads ((bytesOf value).length < 2 ^ 64) (packedString previous) (packString previous value)
      (respelled value, windowAfter previous value) := by
  unfold packedString packString respelled windowAfter
  cases packs : packedHashedSymbol value with
  | some digest =>
    refine (reads_u64 stringHashedSymbol).bind (fun _ => by decide) ?_
    rw [if_neg (by decide), if_pos rfl]
    obtain ⟨digits, -, -, sized⟩ := packedHashedSymbol_spec packs
    have digestReads := reads_raw "packed table is truncated" digest
    rw [sized] at digestReads
    exact digestReads.last (fun _ => trivial) (.pure _)
  | none =>
    obtain ⟨within, short, same⟩ := commonPrefix_spec previous (bytesOf value)
    refine (reads_u64 stringPrefixCoded).bind (fun _ => by decide) ?_
    rw [if_pos rfl]
    refine (reads_u64 _).bind (fun fits => short.trans_lt fits) ?_
    refine (reads_refuseIf _ _).check (fun _ => not_lt.mpr within) ?_
    refine (reads_u64 _).bind (fun fits => ?_) ?_
    · rw [length_drop]
      omega
    · refine (reads_raw _ _).last (fun _ => trivial) ?_
      dsimp only
      rw [same, take_append_drop, fromUTF8_bytesOf]
      exact .pure _

private theorem reads_packedDictionary (values : List String) :
    Reads (values.length ≤ packedCollectionLimit ∧ ∀ value ∈ values, (bytesOf value).length < 2 ^ 64)
      decodePackedStrings (packedDictionary values) (values.map respelled) := by
  refine (reads_count "strings" values.length).bind (fun given => given.1) ?_
  exact (reads_times reads_packedString [] values).weaken fun given => given.2

private theorem map_eq_self {α : Type} {f : α → α} {values : List α} :
    values.map f = values ↔ ∀ value ∈ values, f value = value := by
  nth_rewrite 2 [← map_id values]
  exact map_inj_left

private theorem lowered_eq_self (digit : UInt8) : lowered digit = digit ↔ upperDigit digit = false := by
  unfold lowered
  split
  · rename_i upper
    rw [upper]
    constructor
    · intro same
      have moved := congrArg UInt8.toNat same
      rw [UInt8.toNat_add] at moved
      have bound := digit.toNat_lt
      have shift : (32 : UInt8).toNat = 32 := rfl
      omega
    · exact nofun
  · rename_i lower
    exact ⟨fun _ => Bool.eq_false_iff.mpr lower, fun _ => rfl⟩

private theorem respelled_eq_self (value : String) : respelled value = value ↔
      ((packedHashedSymbol value).isSome → ∀ byte ∈ bytesOf value, upperDigit byte = false) := by
  unfold respelled
  cases packs : packedHashedSymbol value with
  | none => exact ⟨fun _ impossible => absurd impossible (by decide), fun _ => rfl⟩
  | some digest =>
    obtain ⟨digits, whole, spelled, -⟩ := packedHashedSymbol_spec packs
    have front : ∀ byte ∈ bytesOf hashedSymbolPrefix, upperDigit byte = false := by decide +kernel
    have same : hashedSymbol digest = value ↔ digits.map lowered = digits := by
      rw [← append_cancel_left_eq (bytesOf hashedSymbolPrefix), ← spelled, ← whole]
      exact ⟨fun equal => congrArg bytesOf equal, bytesOf_injective⟩
    rw [whole]
    dsimp only
    rw [same]
    constructor
    · intro kept _ byte member
      rcases mem_append.mp member with inFront | inDigits
      · exact front byte inFront
      · have pointwise := map_eq_self.mp kept
        exact (lowered_eq_self byte).mp (pointwise byte inDigits)
    · intro lower
      refine map_eq_self.mpr fun byte member => ?_
      exact (lowered_eq_self byte).mpr (lower rfl byte (mem_append_right _ member))

/-- What the encoder wrote is read back as it was if it is not too long and no hashed id in it has
an upper-case digit. -/
theorem dictionary_round_trips (frame rest : Bytes) (values : List String)
    (sized : ∀ value ∈ values, (bytesOf value).length < 2 ^ 63) :
    decodePackedStrings.run ((appendPackedDictionary frame values).drop frame.length ++ rest) =
        .ok (values, rest) ↔
      values.length ≤ packedCollectionLimit ∧
        ∀ value ∈ values, (packedHashedSymbol value).isSome →
          ∀ byte ∈ bytesOf value, upperDigit byte = false := by
  have reads := reads_packedDictionary values
  have fits : ∀ value ∈ values, (bytesOf value).length < 2 ^ 64 :=
    fun value member => (sized value member).trans (by decide)
  have spelling : values.map respelled = values ↔ ∀ value ∈ values,
      (packedHashedSymbol value).isSome → ∀ byte ∈ bytesOf value, upperDigit byte = false := by
    rw [map_eq_self]
    exact forall₂_congr fun value _ => respelled_eq_self value
  rw [appendPackedDictionary, drop_left, ← spelling]
  constructor
  · intro decoded
    have same := (Prod.mk.inj (reads.only rest _ decoded)).1
    refine ⟨?_, same.symm⟩
    rw [packedDictionary, append_assoc] at decoded
    obtain ⟨length, middle, front, -⟩ := of_bind_ok decoded
    have few := count_le front
    rw [(Prod.mk.inj ((reads_count "strings" values.length).only _ _ front)).1] at few
    exact few
  · rintro ⟨few, kept⟩
    rw [reads.accepts ⟨few, fits⟩ rest, kept]

theorem dictionary_round_trips_shared :
    decodePackedStrings.run ((appendPackedDictionary [7] ["", "caf\u00e8", "caf\u00e9",
        "symbol:h:00112233445566778899aabb"]).drop 1 ++ [9]) =
      .ok (["", "caf\u00e8", "caf\u00e9", "symbol:h:00112233445566778899aabb"], [9]) :=
  (dictionary_round_trips [7] [9] ["", "caf\u00e8", "caf\u00e9",
    "symbol:h:00112233445566778899aabb"] (by decide +kernel)).mpr (by decide +kernel)

theorem dictionary_lowers_hashed :
    ["", "symbol:h:00112233445566778899AABB"].Nodup ∧
      decodePackedStrings.run
          (appendPackedDictionary [] ["", "symbol:h:00112233445566778899AABB"]) =
        .ok (["", "symbol:h:00112233445566778899aabb"], []) := by
  decide +kernel

end SolidChecker.Wire
