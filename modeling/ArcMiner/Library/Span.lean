import ArcMiner.Library.ByteValue
import ArcMiner.Library.CSharp
import ArcMiner.Library.Except

/-! Words read from spans of bytes. -/

namespace ArcMiner.Library

theorem leValue_append (low high : List UInt8) :
    leValue (low ++ high) = leValue low + 256 ^ low.length * leValue high := by
  rw [leValue, List.map_append, Nat.ofDigits_append, List.length_map]
  rfl

namespace CSharp

def spanSlice {α : Type} (span : List α) (start length : Nat) : Result (List α) :=
  if start + length ≤ span.length then .ok ((span.drop start).take length)
  else .error (.argumentOutOfRange "start")

def readUInt64LittleEndian (span : List UInt8) : Result UInt64 :=
  if 8 ≤ span.length then .ok (packBytes (fun i => span.getD i 0) 8)
  else .error (.argumentOutOfRange "length")

theorem spanSlice_of_le {α : Type} {span : List α} {start length : Nat} (inside : start + length ≤ span.length) :
    spanSlice span start length = .ok ((span.drop start).take length) := if_pos inside

theorem readUInt64LittleEndian_of_length {bytes : List UInt8} (whole : bytes.length = 8) :
    ∃ word, readUInt64LittleEndian bytes = .ok word ∧ word.toNat = leValue bytes := by
  have entries : (List.range 8).map (fun i => bytes.getD i 0) = bytes := by
    apply List.ext_getElem
    · simp [whole]
    · intro i _ inside
      rw [List.getElem_map, List.getElem_range, List.getD_eq_getElem]
  refine ⟨_, if_pos whole.ge, ?_⟩
  rw [packBytes_toNat _ (Nat.le_refl 8), entries]

theorem readUInt64LittleEndian_slice (span : List UInt8) (start : Nat) (inside : start + 8 ≤ span.length) :
    ∃ word, (spanSlice span start 8 >>= readUInt64LittleEndian) = .ok word ∧
      word.toNat = leValue ((span.drop start).take 8) := by
  have whole : ((span.drop start).take 8).length = 8 := by
    rw [List.length_take, List.length_drop]
    omega
  rw [spanSlice_of_le inside]
  exact readUInt64LittleEndian_of_length whole

end CSharp
end ArcMiner.Library
