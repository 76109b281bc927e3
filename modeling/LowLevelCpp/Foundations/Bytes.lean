import Mathlib.Data.Nat.Notation

/-! Byte-addressed memory with little-endian 64-bit words, and ranges of addresses. A store changes
the bytes of its own range only, and a word is read back from where it was stored. -/
namespace Foundations

abbrev Bytes := ℕ → BitVec 8

namespace Bytes
variable {m m' : Bytes} {a b n : ℕ} {v : BitVec 64}

/-- The bytes from `a` on, the least significant one first. -/
def loadWord (m : Bytes) (a : ℕ) : BitVec 64 :=
  m (a + 7) ++ m (a + 6) ++ m (a + 5) ++ m (a + 4) ++ m (a + 3) ++ m (a + 2) ++ m (a + 1) ++ m a

def storeWord (m : Bytes) (a : ℕ) (v : BitVec 64) : Bytes := fun b =>
  if a ≤ b ∧ b < a + 8 then v.extractLsb' (8 * (b - a)) 8 else m b

/-- `memset` -/
def fill (m : Bytes) (a n : ℕ) (byte : BitVec 8) : Bytes := fun b =>
  if a ≤ b ∧ b < a + n then byte else m b

/-- A word depends on its eight bytes only. -/
theorem loadWord_congr (h : ∀ b, a ≤ b → b < a + 8 → m' b = m b) :
    m'.loadWord a = m.loadWord a := by
  have hbyte (k : ℕ) (hk : k < 8) : m' (a + k) = m (a + k) :=
    h _ (Nat.le_add_right _ _) (by omega)
  unfold loadWord
  rw [hbyte 7 (by decide), hbyte 6 (by decide), hbyte 5 (by decide), hbyte 4 (by decide),
    hbyte 3 (by decide), hbyte 2 (by decide), hbyte 1 (by decide), ← Nat.add_zero a,
    hbyte 0 (by decide)]

theorem storeWord_outside (h : b < a ∨ a + 8 ≤ b) : m.storeWord a v b = m b := by
  unfold storeWord
  rw [if_neg (by omega)]

theorem storeWord_byte {k : ℕ} (hk : k < 8) :
    m.storeWord a v (a + k) = v.extractLsb' (8 * k) 8 := by
  unfold storeWord
  rw [if_pos (by omega), Nat.add_sub_cancel_left]

theorem loadWord_storeWord : (m.storeWord a v).loadWord a = v := by
  have hzero := storeWord_byte (m := m) (a := a) (v := v) (k := 0) (by decide)
  rw [Nat.add_zero] at hzero
  unfold loadWord
  rw [storeWord_byte (by decide), storeWord_byte (by decide), storeWord_byte (by decide),
    storeWord_byte (by decide), storeWord_byte (by decide), storeWord_byte (by decide),
    storeWord_byte (by decide), hzero]
  apply BitVec.eq_of_getLsbD_eq
  intro i hi
  simp only [BitVec.getLsbD_append, BitVec.getLsbD_extractLsb']
  grind

theorem fill_inside {byte : BitVec 8} (hlo : a ≤ b) (hhi : b < a + n) :
    m.fill a n byte b = byte := by
  unfold fill
  rw [if_pos ⟨hlo, hhi⟩]

theorem fill_outside {byte : BitVec 8} (h : b < a ∨ a + n ≤ b) : m.fill a n byte b = m b := by
  unfold fill
  rw [if_neg (by omega)]

end Bytes
end Foundations
