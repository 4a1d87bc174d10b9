import Xv6.Lib.Move
import Xv6.Lib.Word

/-!
# `memmove` of the kernel and of the user library

The kernel looks at how the ranges overlap and picks the direction. The user library always goes
upwards, and its count is an `int`. So it copies what the kernel copies unless the destination
starts inside the source, or the count is negative.
-/

namespace Xv6.Memmove

open Lib

/-- Memory by address. -/
abbrev Mem : Type := Word → BitVec 8

/-- `memmove` of `string.c`: the pointer it returns, and the memory. -/
def kernelMemmove (dst src n : Word) (m : Mem) : Word × Mem :=
  if src < dst ∧ dst < src + n then
    (dst, copyDown n.toNat (dst + n) (src + n) m)
  else (dst, copyUp n.toNat dst src m)

/-- `memmove` of `ulib.c`. The loop runs while the `int` is positive. -/
def userMemmove (dst src n : Word) (m : Mem) : Word × Mem :=
  (dst, copyUp n.toInt.toNat dst src m)

variable {dst src n : Word} {m : Mem}

theorem kernelMemmove_moved (hs : src.toNat + n.toNat ≤ 2 ^ 32) (hd : dst.toNat + n.toNat ≤ 2 ^ 32) :
    Moved m (kernelMemmove dst src n m).2 dst src n.toNat := by
  have hn : ∀ p : Word, p + n = ahead p n.toNat := fun p => by rw [ahead, BitVec.ofNat_toNat, BitVec.setWidth_eq]
  unfold kernelMemmove
  split
  · next h =>
    rw [hn, hn]
    exact copyDown_moved hd (BitVec.le_of_lt h.1)
  · next h =>
    refine (copyUp_moved_iff hs hd).2 fun hlt i hi => absurd ⟨hlt, ?_⟩ h
    -- The destination ends inside the address space, so the source does too.
    have hpos : src.toNat < dst.toNat := hlt
    rw [BitVec.lt_def, hn, toNat_ahead (by omega)]
    omega

/-- The user library copies right. -/
def UserMoves (dst src n : Word) (m : Mem) : Prop :=
  if n.toNat < 2 ^ 31 then
    src < dst → ∀ i, i + (dst.toNat - src.toNat) < n.toNat →
      m (ahead src (i + (dst.toNat - src.toNat))) = m (ahead src i)
  else ∀ i < n.toNat, m (ahead dst i) = m (ahead src i)

theorem userMemmove_moved_iff (hs : src.toNat + n.toNat ≤ 2 ^ 32) (hd : dst.toNat + n.toNat ≤ 2 ^ 32) :
    Moved m (userMemmove dst src n m).2 dst src n.toNat ↔ UserMoves dst src n m := by
  unfold userMemmove UserMoves
  by_cases hneg : n.toNat < 2 ^ 31
  · have hint : n.toInt.toNat = n.toNat := by
      rw [BitVec.toInt_eq_toNat_of_lt (by omega), Int.toNat_natCast]
    rw [if_pos hneg, hint]
    exact copyUp_moved_iff hs hd
  · have hint : n.toInt.toNat = 0 := by
      rw [BitVec.toInt_eq_toNat_cond, if_neg (by omega)]
      omega
    rw [if_neg hneg, hint]
    exact ⟨fun h => h.bytes, fun h => ⟨h, fun _ _ => rfl⟩⟩

/-- Both leave what a copy through a temporary leaves, and so the same, exactly when the user library
copies right. -/
theorem memmove_moved_iff (dst src n : Word) (m : Mem) (hs : src.toNat + n.toNat ≤ 2 ^ 32)
    (hd : dst.toNat + n.toNat ≤ 2 ^ 32) :
    (Moved m (kernelMemmove dst src n m).2 dst src n.toNat ∧ Moved m (userMemmove dst src n m).2 dst src n.toNat ∧
      kernelMemmove dst src n m = userMemmove dst src n m) ↔ UserMoves dst src n m := by
  have hk := kernelMemmove_moved (m := m) hs hd
  rw [← userMemmove_moved_iff hs hd]
  refine ⟨fun h => h.2.1, fun hu => ⟨hk, hu, Prod.ext ?_ (hk.unique hu)⟩⟩
  unfold kernelMemmove
  split
  · rfl
  · rfl

theorem memmove_moved_apart :
    kernelMemmove 0x2000 0x1000 4 (fun a => a.setWidth 8) = userMemmove 0x2000 0x1000 4 (fun a => a.setWidth 8) := by
  refine ((memmove_moved_iff 0x2000 0x1000 4 (fun a => a.setWidth 8) (by decide) (by decide)).2 ?_).2.2
  intro _ i hi
  exact absurd hi (by rw [show (0x2000 : Word).toNat - (0x1000 : Word).toNat = 4096 from rfl,
    show (4 : Word).toNat = 4 from rfl]; omega)

/-- Two bytes, moved up by one: the first arrives twice. -/
theorem memmove_overlap : ¬ (Moved (fun a : Word => a.setWidth 8)
    (userMemmove 0x1001 0x1000 2 fun a => a.setWidth 8).2 0x1001 0x1000 2) ∧
    (0x1000 : Word).toNat + 2 ≤ 2 ^ 32 ∧ (0x1001 : Word).toNat + 2 ≤ 2 ^ 32 :=
  ⟨fun h => absurd (h.bytes 1 (by decide)) (by decide), by decide, by decide⟩

end Xv6.Memmove
