import RazorCrypto.Shm.Name
import Mathlib.Logic.Function.Basic

/-!
# Records of `shm_md_tick`

The older store keeps three slots for each instrument. An update goes to the slot after
the current one, which `current_index` itself names.
-/

universe u

namespace RazorCrypto.Shm

/-- `md_head` with its slots, without `update_time`. -/
structure MdHead (α : Type u) where
  currentIndex : Int
  instrumentId : Name
  dat : Nat → α

namespace MdHead

/-- `MD_BLOCK_NUM` of `shm_md_tick`. -/
def mdBlockNum : Int := 3

variable {α : Type u} {r : MdHead α} {k : Nat}

/-- The record when `current_index` is `index`. -/
def atIndex (r : MdHead α) (index : Nat) : MdHead α := { r with currentIndex := index }

/-- The slot that `on_rtn_data` writes: `(current_index + 1) % MD_BLOCK_NUM`. -/
def nextOffset (r : MdHead α) : Nat := (Int.tmod (r.currentIndex + 1) mdBlockNum).toNat

/-- The slot of `shm_md_tick::get_cur_md`. -/
def curOffset (r : MdHead α) : Nat := (Int.tmod r.currentIndex mdBlockNum).toNat

/-- The slot of `md_head::get_cur_md`, which corrects a negative remainder. -/
def memberOffset (r : MdHead α) : Nat :=
  let offset := Int.tmod r.currentIndex 3
  (if offset < 0 then offset + 3 else offset).toNat

/-- An accepted update. -/
def store (r : MdHead α) (newData : α) : MdHead α :=
  { r with
    dat := Function.update r.dat r.nextOffset newData
    currentIndex := r.currentIndex + 1 }

theorem nextOffset_eq (index : r.currentIndex = k) : r.nextOffset = (k + 1) % 3 := by
  rw [nextOffset, index]
  exact congrArg Int.toNat (Int.ofNat_tmod (k + 1) 3).symm

theorem curOffset_eq (index : r.currentIndex = k) : r.curOffset = k % 3 := by
  rw [curOffset, index]
  exact congrArg Int.toNat (Int.ofNat_tmod k 3).symm

theorem memberOffset_eq (index : r.currentIndex = k) : r.memberOffset = k % 3 := by
  have offset : Int.tmod r.currentIndex 3 = ((k % 3 : Nat) : Int) := by
    rw [index]
    exact (Int.ofNat_tmod k 3).symm
  dsimp only [memberOffset]
  rw [offset, if_neg (by omega), Int.toNat_natCast]

end MdHead
end RazorCrypto.Shm
