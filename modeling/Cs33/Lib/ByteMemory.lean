import Mathlib.Tactic.Ring
import Mathlib.Tactic.NormNum

/-! # Byte-addressed memory and little-endian words

A memory assigns a byte to every address. Words of any width are read and
written low byte first, and may overlap. The load and store laws below are
the only facts about bytes that a client of this module needs.
-/

namespace ByteMemory

abbrev Bytes := Nat → UInt8

def loadLE (m : Bytes) (a : Nat) : Nat → Nat
  | 0 => 0
  | n + 1 => (m a).toNat + 256 * loadLE m (a + 1) n

def storeLE (m : Bytes) (a n v : Nat) : Bytes := fun x =>
  if a ≤ x ∧ x < a + n then UInt8.ofNat (v / 256 ^ (x - a)) else m x

def fill (m : Bytes) (a n : Nat) (b : UInt8) : Bytes := fun x =>
  if a ≤ x ∧ x < a + n then b else m x

def copy (m : Bytes) (dst src n : Nat) : Bytes := fun x =>
  if dst ≤ x ∧ x < dst + n then m (src + (x - dst)) else m x

def AgreeOn (lo hi : Nat) (m m' : Bytes) : Prop :=
  ∀ x, lo ≤ x → x < hi → m' x = m x

/-- Only bytes from `lo` up to, not including, `hi` may differ. -/
def AgreeOff (lo hi : Nat) (m m' : Bytes) : Prop :=
  ∀ x, x < lo ∨ hi ≤ x → m' x = m x

theorem AgreeOn.mono {lo hi lo' hi' : Nat} {m m' : Bytes} (h : AgreeOn lo hi m m')
    (hlo : lo ≤ lo') (hhi : hi' ≤ hi) : AgreeOn lo' hi' m m' :=
  fun x hx hx' => h x (hlo.trans hx) (hx'.trans_le hhi)

theorem AgreeOff.refl (lo hi : Nat) (m : Bytes) : AgreeOff lo hi m m := fun _ _ => rfl

theorem AgreeOff.trans {lo hi : Nat} {m m' m'' : Bytes} (h : AgreeOff lo hi m m')
    (h' : AgreeOff lo hi m' m'') : AgreeOff lo hi m m'' :=
  fun x hx => (h' x hx).trans (h x hx)

theorem AgreeOff.mono {lo hi lo' hi' : Nat} {m m' : Bytes} (h : AgreeOff lo hi m m')
    (hlo : lo' ≤ lo) (hhi : hi ≤ hi') : AgreeOff lo' hi' m m' :=
  fun x hx => h x (hx.imp (fun hx => hx.trans_le hlo) (fun hx => hhi.trans hx))

theorem AgreeOff.agreeOn {lo hi lo' hi' : Nat} {m m' : Bytes} (h : AgreeOff lo hi m m')
    (hdis : hi' ≤ lo ∨ hi ≤ lo') : AgreeOn lo' hi' m m' := by
  intro x hx hx'
  apply h x
  rcases hdis with hdis | hdis
  · exact .inl (hx'.trans_le hdis)
  · exact .inr (hdis.trans hx)

theorem agreeOn_iff {lo n : Nat} {m m' : Bytes} :
    AgreeOn lo (lo + n) m m' ↔ ∀ i < n, m' (lo + i) = m (lo + i) := by
  constructor
  · intro h i hi
    exact h (lo + i) (by omega) (by omega)
  · intro h x hLo hHi
    rw [show x = lo + (x - lo) by omega]
    exact h (x - lo) (by omega)

theorem AgreeOn.trans {lo hi : Nat} {m m' m'' : Bytes} (h : AgreeOn lo hi m m')
    (h' : AgreeOn lo hi m' m'') : AgreeOn lo hi m m'' :=
  fun x hLo hHi => (h' x hLo hHi).trans (h x hLo hHi)

theorem copy_agreeOff (m : Bytes) (dst src n : Nat) : AgreeOff dst (dst + n) m (copy m dst src n) := by
  intro x hx
  rw [copy, if_neg (by omega)]

theorem copy_at (m : Bytes) (dst src : Nat) {n i : Nat} (h : i < n) :
    copy m dst src n (dst + i) = m (src + i) := by
  rw [copy, if_pos (by omega), Nat.add_sub_cancel_left]

theorem copy_zero (m : Bytes) (dst src : Nat) : copy m dst src 0 = m := by
  funext x
  rw [copy, if_neg (by omega)]

theorem storeLE_agreeOff (m : Bytes) (a n v : Nat) : AgreeOff a (a + n) m (storeLE m a n v) := by
  intro x hx
  rw [storeLE, if_neg (by omega)]

theorem loadLE_congr {m m' : Bytes} {a n : Nat} (h : AgreeOn a (a + n) m m') :
    loadLE m' a n = loadLE m a n := by
  induction n generalizing a with
  | zero => rfl
  | succ n ih =>
    rw [loadLE, loadLE, h a le_rfl (by omega), ih (h.mono (by omega) (by omega))]

theorem loadLE_lt (m : Bytes) (a n : Nat) : loadLE m a n < 256 ^ n := by
  induction n generalizing a with
  | zero => simp [loadLE]
  | succ n ih =>
    have hByte := (m a).toNat_lt
    have hRest := ih (a + 1)
    rw [loadLE, pow_succ]
    omega

theorem loadLE_add (m : Bytes) (a k n : Nat) :
    loadLE m a (k + n) = loadLE m a k + 256 ^ k * loadLE m (a + k) n := by
  induction k generalizing a with
  | zero => simp [loadLE]
  | succ k ih =>
    rw [Nat.succ_add, loadLE, loadLE, ih, show a + 1 + k = a + (k + 1) by omega]
    ring

theorem loadLE_storeLE_of_disjoint {m : Bytes} {a n v b k : Nat}
    (h : b + k ≤ a ∨ a + n ≤ b) : loadLE (storeLE m a n v) b k = loadLE m b k :=
  loadLE_congr ((storeLE_agreeOff m a n v).agreeOn h)

theorem storeLE_comm {m : Bytes} {a n v b k w : Nat} (h : b + k ≤ a ∨ a + n ≤ b) :
    storeLE (storeLE m a n v) b k w = storeLE (storeLE m b k w) a n v := by
  funext x
  by_cases ha : a ≤ x ∧ x < a + n
  · have hb : ¬ (b ≤ x ∧ x < b + k) := by omega
    simp only [storeLE, if_pos ha, if_neg hb]
  · simp only [storeLE, if_neg ha]

theorem storeLE_succ (m : Bytes) (a n v : Nat) :
    storeLE m a (n + 1) v = storeLE (storeLE m a 1 v) (a + 1) n (v / 256) := by
  funext x
  obtain hx | hx := eq_or_ne x a
  · subst hx
    simp [storeLE]
  · by_cases hIn : a ≤ x ∧ x < a + (n + 1)
    · have hPow : v / 256 ^ (x - a) = v / 256 / 256 ^ (x - (a + 1)) := by
        rw [Nat.div_div_eq_div_mul, ← pow_succ', show x - (a + 1) + 1 = x - a by omega]
      rw [storeLE, if_pos hIn, storeLE, if_pos (by omega), hPow]
    · rw [storeLE, if_neg hIn, storeLE, if_neg (by omega), storeLE, if_neg (by omega)]

theorem loadLE_storeLE (m : Bytes) (a n v : Nat) :
    loadLE (storeLE m a n v) a n = v % 256 ^ n := by
  induction n generalizing m a v with
  | zero => simp [loadLE, Nat.mod_one]
  | succ n ih =>
    have hFirst : (storeLE m a (n + 1) v a).toNat = v % 256 := by simp [storeLE]
    rw [loadLE, hFirst, storeLE_succ, ih, pow_succ', Nat.mod_mul]

theorem storeLE_loadLE (m : Bytes) (a n : Nat) : storeLE m a n (loadLE m a n) = m := by
  induction n generalizing a with
  | zero =>
    funext x
    rw [storeLE, if_neg (by omega)]
  | succ n ih =>
    have hByte := (m a).toNat_lt
    have hRest : loadLE m a (n + 1) / 256 = loadLE m (a + 1) n := by
      rw [loadLE]
      omega
    have hFirst : storeLE m a 1 (loadLE m a (n + 1)) = m := by
      funext x
      rw [storeLE, loadLE]
      split
      · rename_i hx
        obtain rfl : x = a := by omega
        rw [Nat.sub_self, pow_zero, Nat.div_one]
        apply UInt8.toNat_inj.mp
        rw [UInt8.toNat_ofNat']
        omega
      · rfl
    rw [storeLE_succ, hFirst, hRest, ih]

theorem loadLE_storeLE_of_lt {m : Bytes} {a n v : Nat} (h : v < 256 ^ n) :
    loadLE (storeLE m a n v) a n = v := by
  rw [loadLE_storeLE, Nat.mod_eq_of_lt h]

end ByteMemory
