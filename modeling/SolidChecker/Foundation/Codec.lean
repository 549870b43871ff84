/- digest: Readers of byte strings, and integers in groups of seven bits. -/

import Mathlib.Tactic.Ring

namespace SolidChecker.Foundation.Codec

open List

abbrev Bytes := List UInt8

abbrev Reader (α : Type) := StateT Bytes (Except String) α

variable {α β σ : Type} {next : α → Reader β}

theorem of_bind_ok {reader : Reader α} {input : Bytes} {out : β × Bytes}
    (read : (reader >>= next).run input = .ok out) :
    ∃ value rest, reader.run input = .ok (value, rest) ∧ (next value).run rest = .ok out := by
  rw [StateT.run_bind] at read
  cases front : reader.run input with
  | error fault =>
    rw [front] at read
    exact nomatch read
  | ok pair =>
    rw [front] at read
    exact ⟨pair.1, pair.2, rfl, read⟩

/-- Before any other bytes, the reader finds `value` in `bytes`, or it refuses; it does not refuse
when `ok` holds. -/
structure Reads (ok : Prop) (reader : Reader α) (bytes : Bytes) (value : α) : Prop where
  accepts : ok → ∀ rest, reader.run (bytes ++ rest) = .ok (value, rest)
  only : ∀ rest out, reader.run (bytes ++ rest) = .ok out → out = (value, rest)

namespace Reads

variable {ok ok₁ ok₂ : Prop} {reader : Reader α} {bytes more : Bytes} {value : α}

theorem pure (value : α) : Reads ok (Pure.pure value) [] value where
  accepts := fun _ _ => rfl
  only := fun _ _ read => (Except.ok.inj read).symm

variable {result : β}

theorem bind (first : Reads ok₁ reader bytes value)
    (enough : ok → ok₁) (second : Reads ok (next value) more result) :
    Reads ok (reader >>= next) (bytes ++ more) result where
  accepts := by
    intro holds rest
    rw [StateT.run_bind, append_assoc, first.accepts (enough holds)]
    exact second.accepts holds rest
  only := by
    intro rest out read
    rw [append_assoc] at read
    obtain ⟨middle, left, front, back⟩ := of_bind_ok read
    cases first.only _ _ front
    exact second.only rest out back

theorem weaken {stronger : Prop} (reads : Reads ok reader bytes value) (holds : stronger → ok) :
    Reads stronger reader bytes value where
  accepts := fun given => reads.accepts (holds given)
  only := reads.only

theorem check (first : Reads ok₁ reader [] value)
    (enough : ok → ok₁) (second : Reads ok (next value) bytes result) :
    Reads ok (reader >>= next) bytes result :=
  first.bind enough second

theorem last (first : Reads ok₁ reader bytes value)
    (enough : ok → ok₁) (second : Reads ok (next value) [] result) :
    Reads ok (reader >>= next) bytes result := by
  rw [← append_nil bytes]
  exact first.bind enough second

private theorem throw (fault : String) (value : α) : Reads False (throw fault : Reader α) bytes value where
  accepts := fun impossible => impossible.elim
  only := fun _ _ read => nomatch read

end Reads

def refuseIf (condition : Prop) [Decidable condition] (fault : String) : Reader Unit :=
  if condition then throw fault else pure ()

theorem of_refuseIf_ok {condition : Prop} [Decidable condition] {fault : String} {input : Bytes}
    {out : Unit × Bytes} (read : (refuseIf condition fault).run input = .ok out) : ¬condition := by
  intro holds
  unfold refuseIf at read
  rw [if_pos holds] at read
  exact nomatch read

theorem reads_refuseIf (condition : Prop) [Decidable condition] (fault : String) :
    Reads (¬condition) (refuseIf condition fault) [] () := by
  unfold refuseIf
  split
  · rename_i holds
    exact (Reads.throw fault ()).weaken fun avoided => avoided holds
  · exact .pure ()

variable (fault : String)

def nextByte : Reader UInt8 := fun input =>
  match input with
  | [] => .error fault
  | byte :: rest => .ok (byte, rest)

private theorem reads_nextByte (byte : UInt8) : Reads True (nextByte fault) [byte] byte where
  accepts := fun _ _ => rfl
  only := fun _ _ read => (Except.ok.inj read).symm

def raw (length : ℕ) : Reader Bytes := fun input =>
  if length ≤ input.length then .ok (input.take length, input.drop length) else .error fault

theorem reads_raw (bytes : Bytes) : Reads True (raw fault bytes.length) bytes bytes := by
  have accepts (rest : Bytes) : (raw fault bytes.length).run (bytes ++ rest) = .ok (bytes, rest) := by
    have enough : bytes.length ≤ (bytes ++ rest).length := by
      rw [length_append]
      omega
    calc (raw fault bytes.length).run (bytes ++ rest)
        = .ok ((bytes ++ rest).take bytes.length, (bytes ++ rest).drop bytes.length) :=
          if_pos enough
      _ = .ok (bytes, rest) := by rw [take_left, drop_left]
  refine ⟨fun _ => accepts, fun rest out read => ?_⟩
  rw [accepts rest] at read
  exact (Except.ok.inj read).symm

section

/-- Reads one element after the other, each under the state the elements before it left. -/
def times (step : σ → Reader (α × σ)) : ℕ → σ → Reader (List α)
  | 0, _ => pure []
  | count + 1, state => do
      let (value, state) ← step state
      let values ← times step count state
      pure (value :: values)

def written {ι : Type} (write : σ → ι → Bytes) (next : σ → ι → σ) : σ → List ι → Bytes
  | _, [] => []
  | state, item :: items => write state item ++ written write next (next state item) items

theorem reads_times {ι : Type} {step : σ → Reader (α × σ)} {ok : ι → Prop}
    {write : σ → ι → Bytes} {read : ι → α} {next : σ → ι → σ}
    (each : ∀ state item, Reads (ok item) (step state) (write state item)
      (read item, next state item)) (state : σ) (items : List ι) :
    Reads (∀ item ∈ items, ok item) (times step items.length state)
      (written write next state items) (items.map read) := by
  induction items generalizing state with
  | nil => exact .pure []
  | cons item items ih =>
    refine (each state item).bind (fun given => given item mem_cons_self) ?_
    refine (ih (next state item)).last (fun given => ?_) (.pure _)
    exact fun other member => given other (mem_cons_of_mem item member)

end

section

/-- Groups of seven bits, the lowest first; every byte but the last has its top bit set. -/
def uvarintIn : ℕ → ℕ → Bytes
  | 0, value => [UInt8.ofNat value]
  | steps + 1, value =>
    if 128 ≤ value then UInt8.ofNat (value % 128 + 128) :: uvarintIn steps (value / 128)
    else [UInt8.ofNat value]

def uvarint (value : ℕ) : Bytes := uvarintIn value value

/-- What a reader of such integers says where it refuses, and whether it refuses a last byte that
adds nothing. -/
structure VarintFaults where
  exhausted : ℕ → String
  overflow : String
  padded : Option String

variable (faults : VarintFaults)

/-- The value of a last byte, unless it is zero in a place where the number could have ended
before. -/
def VarintFaults.last (index : ℕ) (byte : UInt8) (value : ℕ) : Reader ℕ :=
  match faults.padded with
  | none => pure value
  | some fault => if index ≠ 0 ∧ byte = 0 then throw fault else pure value

def VarintFaults.groups (faults : VarintFaults) : ℕ → ℕ → ℕ → Reader ℕ
  | 0, _, _ => throw faults.overflow
  | left + 1, index, value => do
      let byte ← nextByte (faults.exhausted index)
      refuseIf (index = 9 ∧ 1 < byte.toNat) faults.overflow
      let value := value + byte.toNat % 128 * 2 ^ (7 * index)
      if byte.toNat < 128 then faults.last index byte value
      else faults.groups left (index + 1) value

def VarintFaults.read : Reader ℕ := faults.groups 10 0 0

private theorem uvarintIn_small {value : ℕ} (steps : ℕ) (small : value < 128) :
    uvarintIn steps value = [UInt8.ofNat value] := by
  cases steps with
  | zero => rfl
  | succ steps => exact if_neg (by omega)

private theorem reads_last {index value total : ℕ} {ok : Prop} (small : value < 128)
    (shortest : index ≠ 0 → value ≠ 0) :
    Reads ok (faults.last index (UInt8.ofNat value) total) [] total := by
  have nonzero : ¬(index ≠ 0 ∧ UInt8.ofNat value = 0) := by
    rintro ⟨later, zero⟩
    have toNat := congrArg UInt8.toNat zero
    rw [UInt8.toNat_ofNat_of_lt' (by show value < 256; omega)] at toNat
    exact shortest later toNat
  unfold VarintFaults.last
  split
  · exact .pure total
  · rw [if_neg nonzero]
    exact .pure total

private theorem reads_groups (faults : VarintFaults) (left index : ℕ) {value : ℕ}
    (counted : left + index = 10) (shortest : index ≠ 0 → value ≠ 0)
    (steps : ℕ) (enough : value < 128 ^ (steps + 1)) (total : ℕ) :
    Reads (value < 2 ^ (64 - 7 * index)) (faults.groups left index total)
      (uvarintIn steps value) (total + value * 2 ^ (7 * index)) := by
  induction left generalizing index value steps total with
  | zero =>
    refine (Reads.throw faults.overflow _).weaken fun fits => ?_
    have : index = 10 := by omega
    subst this
    exact shortest (by decide) (Nat.lt_one_iff.mp fits)
  | succ left ih =>
    by_cases small : value < 128
    · have byte : (UInt8.ofNat value).toNat = value :=
        UInt8.toNat_ofNat_of_lt' (by show value < 256; omega)
      rw [uvarintIn_small steps small]
      refine (reads_nextByte (faults.exhausted index) (UInt8.ofNat value)).bind
        (fun _ => trivial) ?_
      refine (reads_refuseIf _ faults.overflow).check (fun fits => ?_) ?_
      · rw [byte]
        rintro ⟨rfl, above⟩
        norm_num at fits
        omega
      · dsimp only
        rw [byte, if_pos small, Nat.mod_eq_of_lt small]
        exact reads_last faults small shortest
    · have large : 128 ≤ value := by omega
      obtain ⟨steps, rfl⟩ : ∃ fewer, steps = fewer + 1 := by
        cases steps with
        | zero => omega
        | succ fewer => exact ⟨fewer, rfl⟩
      have byte : (UInt8.ofNat (value % 128 + 128)).toNat = value % 128 + 128 :=
        UInt8.toNat_ofNat_of_lt' (by show value % 128 + 128 < 256; omega)
      have unfolded : uvarintIn (steps + 1) value =
          [UInt8.ofNat (value % 128 + 128)] ++ uvarintIn steps (value / 128) := if_pos large
      have sum : total + value * 2 ^ (7 * index) = total +
          (value % 128) * 2 ^ (7 * index) + value / 128 * 2 ^ (7 * (index + 1)) := by
        have power : 2 ^ (7 * (index + 1)) = 128 * 2 ^ (7 * index) := by
          rw [Nat.mul_add, pow_add]
          ring
        have divided := Nat.div_add_mod value 128
        calc total + value * 2 ^ (7 * index)
            = total + (128 * (value / 128) + value % 128) * 2 ^ (7 * index) := by rw [divided]
          _ = _ := by rw [power]; ring
      rw [unfolded, sum]
      refine (reads_nextByte (faults.exhausted index) _).bind (fun _ => trivial) ?_
      refine (reads_refuseIf _ faults.overflow).check (fun fits => ?_) ?_
      · rintro ⟨rfl, -⟩
        norm_num at fits
        omega
      · dsimp only
        rw [byte, if_neg (by omega), Nat.add_mod_right, Nat.mod_mod]
        have rest : value / 128 < 128 ^ (steps + 1) := by
          apply Nat.div_lt_of_lt_mul
          rw [← pow_succ']
          exact enough
        refine (ih (index + 1) (by omega) (fun _ => by omega) steps rest _).weaken fun fits => ?_
        have wide : 7 * (index + 1) ≤ 64 := by
          by_contra narrow
          have none : 64 - 7 * index ≤ 7 := by omega
          have bound := Nat.pow_le_pow_right (show 0 < 2 by decide) none
          omega
        have power : 2 ^ (64 - 7 * index) = 128 * 2 ^ (64 - 7 * (index + 1)) := by
          have split : 64 - 7 * index = 7 + (64 - 7 * (index + 1)) := by omega
          rw [split, pow_add]
          rfl
        exact Nat.div_lt_of_lt_mul (power ▸ fits)

theorem reads_uvarint (value : ℕ) : Reads (value < 2 ^ 64) faults.read (uvarint value) value := by
  have enough : value < 128 ^ (value + 1) :=
    (Nat.lt_pow_self (by decide)).trans_le' (Nat.le_succ value)
  have reads := reads_groups faults 10 0 rfl (fun later => absurd rfl later) value enough 0
  rw [Nat.mul_zero, pow_zero, Nat.mul_one, Nat.zero_add] at reads
  exact reads

end

section

variable (fields : List (Bool × ℕ))

def flags : ℕ :=
  fields.foldl (fun bits field => if field.1 then bits ||| 2 ^ field.2 else bits) 0

private theorem testBit_foldl (bits place : ℕ) :
    (fields.foldl (fun bits field => if field.1 then bits ||| 2 ^ field.2 else bits) bits).testBit
        place =
      (bits.testBit place || fields.any fun field => field.1 && decide (field.2 = place)) := by
  induction fields generalizing bits with
  | nil => exact (Bool.or_false _).symm
  | cons field fields ih =>
    rw [foldl_cons, ih, any_cons, ← Bool.or_assoc]
    congr 1
    cases field.1
    · simp
    · simp [Nat.testBit_or, Nat.testBit_two_pow]

theorem testBit_flags (place : ℕ) :
    (flags fields).testBit place = fields.any fun field => field.1 && decide (field.2 = place) := by
  rw [flags, testBit_foldl, Nat.zero_testBit, Bool.false_or]

theorem flags_lt {fields : List (Bool × ℕ)} {width : ℕ}
    (narrow : ∀ field ∈ fields, field.1 → field.2 < width) : flags fields < 2 ^ width := by
  apply Nat.lt_pow_two_of_testBit
  intro place above
  rw [testBit_flags, any_eq_false]
  intro field member
  simp only [Bool.and_eq_true, decide_eq_true_eq, not_and]
  intro set
  have below := narrow field member set
  omega

end

end SolidChecker.Foundation.Codec
