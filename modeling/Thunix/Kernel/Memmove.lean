import Mathlib.Data.List.Range
import Thunix.Fs.Device
import Thunix.Lib.Overlap

/-!
# Moving memory

`memmove` of `lib/string.c`. It copies from the first byte on when it moves down, and from the
last byte back when it moves up; there the pointers start behind the ranges and are decremented
before each access. Pointers are words of 32 bits and go round, so that a range may end with the
memory, and the pointer behind it is 0.

Neither loop reads a byte that it has written before
(`Thunix.Kernel.readsFirst_up`, `Thunix.Kernel.readsFirst_down`). So `memmove` is right however the
ranges overlap (`Thunix.Kernel.memmove_overlapSafe`), and what `Thunix.Fs.sysRead` says of the
caller's buffer is what happens in memory (`Thunix.Kernel.memmove_shift`).
-/

namespace Thunix.Kernel

open Overlap

/-! ### The source -/

/-- `while (count--) *tmp++ = *s++`. -/
def moveUp (m : UInt32 → UInt8) (tmp s : UInt32) : ℕ → UInt32 → UInt8
  | 0 => m
  | count + 1 => moveUp (Function.update m tmp (m s)) (tmp + 1) (s + 1) count

/-- `while (count--) *--tmp = *--s`. -/
def moveDown (m : UInt32 → UInt8) (tmp s : UInt32) : ℕ → UInt32 → UInt8
  | 0 => m
  | count + 1 => moveDown (Function.update m (tmp - 1) (m (s - 1))) (tmp - 1) (s - 1) count

/-- `memmove`: the result, and the memory. -/
def memmove (m : UInt32 → UInt8) (dest src count : UInt32) : UInt32 × (UInt32 → UInt8) :=
  if dest ≤ src then (dest, moveUp m dest src count.toNat)
  else (dest, moveDown m (dest + count) (src + count) count.toNat)

/-! ### The copies of the loops -/

variable {m : UInt32 → UInt8} {dest src count p q a : UInt32} {i n : ℕ}

/-- The bytes of two ranges, one by one. -/
def bytePairs (p q : UInt32) (n : ℕ) : List (UInt32 × UInt32) :=
  (List.range n).map fun i => (p + UInt32.ofNat i, q + UInt32.ofNat i)

theorem add_ofNat_succ (p : UInt32) (n : ℕ) :
    p + UInt32.ofNat (n + 1) = p + 1 + UInt32.ofNat n := by
  rw [UInt32.ofNat_add, UInt32.add_comm (UInt32.ofNat n), ← UInt32.add_assoc]
  rfl

theorem add_ofNat_pred (p : UInt32) (n : ℕ) :
    p + UInt32.ofNat (n + 1) - 1 = p + UInt32.ofNat n := by
  rw [UInt32.ofNat_add, ← UInt32.add_assoc]
  exact UInt32.add_sub_cancel _ _

/-- **The first loop** copies the bytes in order. -/
theorem moveUp_eq (m : UInt32 → UInt8) (p q : UInt32) (n : ℕ) :
    moveUp m p q n = copies m (bytePairs p q n) := by
  induction n generalizing m p q with
  | zero => rfl
  | succ n ih =>
    have hpairs : bytePairs p q (n + 1) = (p, q) :: bytePairs (p + 1) (q + 1) n := by
      rw [bytePairs, List.range_succ_eq_map, List.map_cons, List.map_map, bytePairs]
      refine congrArg₂ List.cons (congrArg₂ Prod.mk (UInt32.add_zero p) (UInt32.add_zero q)) ?_
      exact List.map_congr_left fun i _ =>
        congrArg₂ Prod.mk (add_ofNat_succ p i) (add_ofNat_succ q i)
    rw [moveUp, ih, hpairs, copies]

/-- **The second loop** copies them in the opposite order. -/
theorem moveDown_eq (m : UInt32 → UInt8) (p q : UInt32) (n : ℕ) :
    moveDown m (p + UInt32.ofNat n) (q + UInt32.ofNat n) n =
      copies m (bytePairs p q n).reverse := by
  induction n generalizing m with
  | zero => rfl
  | succ n ih =>
    have hpairs : (bytePairs p q (n + 1)).reverse =
        (p + UInt32.ofNat n, q + UInt32.ofNat n) :: (bytePairs p q n).reverse := by
      rw [bytePairs, List.range_succ, List.map_append, List.reverse_append, bytePairs]
      rfl
    rw [moveDown, add_ofNat_pred, add_ofNat_pred, ih, hpairs, copies]

/-! ### Their order -/

/-- The bytes of a range that ends with the memory at the latest. -/
theorem toNat_add_ofNat (hp : p.toNat + n ≤ 2 ^ 32) (hi : i < n) :
    (p + UInt32.ofNat i).toNat = p.toNat + i := by
  rw [UInt32.toNat_add, UInt32.toNat_ofNat']
  omega

/-- Each byte is written once. -/
theorem bytePairs_once (hp : p.toNat + n ≤ 2 ^ 32) : ((bytePairs p q n).map Prod.fst).Nodup := by
  rw [bytePairs, List.map_map]
  refine List.Nodup.map_on (fun i hi j hj hij => ?_) List.nodup_range
  have h := congrArg UInt32.toNat hij
  change (p + UInt32.ofNat i).toNat = (p + UInt32.ofNat j).toNat at h
  rw [toNat_add_ofNat hp (List.mem_range.mp hi), toNat_add_ofNat hp (List.mem_range.mp hj)] at h
  omega

section Order

variable (hp : p.toNat + n ≤ 2 ^ 32) (hq : q.toNat + n ≤ 2 ^ 32)

include hp hq

/-- Moving down, what is read lies behind all that has been written. -/
theorem readsFirst_up (hle : p ≤ q) : ReadsFirst (bytePairs p q n) := by
  rw [ReadsFirst, bytePairs, List.pairwise_map]
  refine List.Pairwise.imp_of_mem (fun hi hj hlt heq => ?_) List.pairwise_lt_range
  have h := congrArg UInt32.toNat heq
  rw [toNat_add_ofNat hq (List.mem_range.mp hj), toNat_add_ofNat hp (List.mem_range.mp hi)] at h
  have hle' := UInt32.le_iff_toNat_le.mp hle
  omega

/-- Moving up, it lies in front of all that. -/
theorem readsFirst_down (hlt : q < p) : ReadsFirst (bytePairs p q n).reverse := by
  rw [ReadsFirst, List.pairwise_reverse, bytePairs, List.pairwise_map]
  refine List.Pairwise.imp_of_mem (fun hi hj hij heq => ?_) List.pairwise_lt_range
  have h := congrArg UInt32.toNat heq
  rw [toNat_add_ofNat hq (List.mem_range.mp hi), toNat_add_ofNat hp (List.mem_range.mp hj)] at h
  have hlt' := UInt32.lt_iff_toNat_lt.mp hlt
  omega

end Order

/-! ### What has been moved -/

/-- The bytes at `src` have been moved to `dest`, and nothing else has changed. -/
structure Moved (m : UInt32 → UInt8) (dest src count : UInt32) (m' : UInt32 → UInt8) : Prop where
  bytes : ∀ i < count, m' (dest + i) = m (src + i)
  rest : ∀ a : UInt32, a.toNat < dest.toNat ∨ dest.toNat + count.toNat ≤ a.toNat → m' a = m a

/-- The copies may come in any order in which no byte is read that has been written. -/
theorem moved_copies {ps : List (UInt32 × UInt32)} (hp : p.toNat + count.toNat ≤ 2 ^ 32)
    (hperm : ps.Perm (bytePairs p q count.toNat)) (hread : ReadsFirst ps) :
    Moved m p q count (copies m ps) := by
  refine ⟨fun i hi => ?_, fun a ha => copies_of_notMem fun hmem => ?_⟩
  · have hi' : UInt32.ofNat i.toNat = i := UInt32.ofNat_toNat
    have hmem : (p + i, q + i) ∈ bytePairs p q count.toNat :=
      List.mem_map.mpr ⟨i.toNat, List.mem_range.mpr (UInt32.lt_iff_toNat_lt.mp hi), by rw [hi']⟩
    have honce := (hperm.map Prod.fst).nodup_iff.mpr (bytePairs_once hp)
    exact copies_of_mem hread honce (hperm.mem_iff.mpr hmem)
  · -- only bytes of the range are written
    obtain ⟨i, hi, rfl⟩ : ∃ i ∈ List.range count.toNat, p + UInt32.ofNat i = a := by
      rw [(hperm.map Prod.fst).mem_iff, bytePairs, List.map_map] at hmem
      exact List.mem_map.mp hmem
    rw [toNat_add_ofNat hp (List.mem_range.mp hi)] at ha
    have hlt := List.mem_range.mp hi
    omega

theorem moveUp_moved (hdest : dest.toNat + count.toNat ≤ 2 ^ 32)
    (hsrc : src.toNat + count.toNat ≤ 2 ^ 32) (hle : dest ≤ src) :
    Moved m dest src count (moveUp m dest src count.toNat) := by
  rw [moveUp_eq]
  exact moved_copies hdest (.refl _) (readsFirst_up hdest hsrc hle)

theorem moveDown_moved (hdest : dest.toNat + count.toNat ≤ 2 ^ 32)
    (hsrc : src.toNat + count.toNat ≤ 2 ^ 32) (hlt : src < dest) :
    Moved m dest src count (moveDown m (dest + count) (src + count) count.toNat) := by
  have hloop := moveDown_eq m dest src count.toNat
  rw [UInt32.ofNat_toNat] at hloop
  rw [hloop]
  exact moved_copies hdest (List.reverse_perm _) (readsFirst_down hdest hsrc hlt)

/-- **`memmove` moves**, however the ranges overlap. -/
theorem memmove_overlapSafe (m : UInt32 → UInt8) (dest src count : UInt32)
    (hdest : dest.toNat + count.toNat ≤ 2 ^ 32) (hsrc : src.toNat + count.toNat ≤ 2 ^ 32) :
    (memmove m dest src count).1 = dest ∧
      Moved m dest src count (memmove m dest src count).2 := by
  rw [memmove]
  by_cases hle : dest ≤ src
  · rw [if_pos hle]
    exact ⟨rfl, moveUp_moved hdest hsrc hle⟩
  · rw [if_neg hle]
    exact ⟨rfl, moveDown_moved hdest hsrc (UInt32.not_le.mp hle)⟩

/-- Four bytes are moved up by two, to the end of the memory. -/
theorem memmove_overlapSafe_end :
    (memmove (fun a => a.toUInt8) 4294967292 4294967290 4).2 4294967295 = 253 ∧
      (memmove (fun a => a.toUInt8) 4294967292 4294967290 4).2 4294967291 = 251 := by
  obtain ⟨-, hbytes, hrest⟩ :=
    memmove_overlapSafe (fun a => a.toUInt8) 4294967292 4294967290 4 (by decide) (by decide)
  exact ⟨hbytes 3 (by decide), hrest 4294967291 (.inl (by decide))⟩

/-! ### The buffer of `sys_read` -/

/-- The bytes of a buffer. -/
def bufferAt (m : UInt32 → UInt8) (buf : UInt32) : ℕ → UInt8 := fun i => m (buf + UInt32.ofNat i)

/-- **The shift of the buffer** at the end of `sys_read`, as `Thunix.Fs.sysRead` has it, for every
byte that is in front of the end of the memory. -/
theorem memmove_shift {buf skip : UInt32} (hpos : 0 < count.toNat)
    (hfit : buf.toNat + skip.toNat + count.toNat ≤ 2 ^ 32) (hi : buf.toNat + i < 2 ^ 32) :
    bufferAt (memmove m buf (buf + skip) count).2 buf i =
      Fs.blit (bufferAt m buf) 0 count.toNat (fun i => bufferAt m buf (i + skip.toNat)) i := by
  have hsrc : (buf + skip).toNat = buf.toNat + skip.toNat := by
    rw [UInt32.toNat_add]
    omega
  have hle : buf ≤ buf + skip := UInt32.le_iff_toNat_le.mpr (by omega)
  have hmoved : Moved m buf (buf + skip) count (moveUp m buf (buf + skip) count.toNat) :=
    moveUp_moved (by omega) (by omega) hle
  rw [memmove, if_pos hle, Fs.blit, bufferAt]
  have hi32 : (UInt32.ofNat i).toNat = i := by
    rw [UInt32.toNat_ofNat']
    omega
  by_cases hlt : i < count.toNat
  · rw [if_pos ⟨Nat.zero_le i, by omega⟩]
    refine (hmoved.bytes (UInt32.ofNat i) (UInt32.lt_iff_toNat_lt.mpr (by omega))).trans ?_
    rw [bufferAt, Nat.sub_zero, UInt32.ofNat_add, UInt32.ofNat_toNat, UInt32.add_assoc,
      UInt32.add_comm skip]
  · rw [if_neg fun h => hlt (by omega)]
    refine hmoved.rest _ (.inr ?_)
    rw [UInt32.toNat_add]
    omega

end Thunix.Kernel
