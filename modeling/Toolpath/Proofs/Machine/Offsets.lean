import Toolpath.Proofs.Machine.Additions

/-!
# Work offsets

The offset of a frame is changed by `G10 L2` alone, and by no block that ends in a fault: whatever
can go wrong with an offset does so before it is set, and a block that sets one does not move.
-/

namespace Toolpath.Machine

open Toolpath.Geometry (Point)
open Program (Block)
open Number

/-- The frame with this offset slot is the one that the P word of a block names. Without a P word,
and for zero, that is the selected one. -/
def NamesFrame (m : Machine) (b : Block) (s : Fin 6) : Prop :=
  if b.valueD 'P' 0 == 0 then s = m.selection b else value (b.valueD 'P' 0) = s.val + 1

/-- The X, Y and Z words of a block in the units that are in force after its unit words. -/
def offsetWords (m : Machine) (b : Block) : Point where
  x := b.valueD 'X' 0 * (m.setUnits b).scale
  y := b.valueD 'Y' 0 * (m.setUnits b).scale
  z := b.valueD 'Z' 0 * (m.setUnits b).scale

variable {m : Machine} {b : Block}

theorem isFinite_of_isWhole {x : Float} (h : isWhole x = true) : x.isFinite = true := by
  unfold isWhole at h
  rw [isFinite_eq]
  cases hx : x.toModel.unpack with
  | notANumber => rw [hx] at h; cases h
  | infinity s => rw [hx] at h; cases h
  | _ => rfl

theorem value_eq_of_toUInt64 {x : Float} (hwhole : isWhole x = true) (hpos : 0 < x) {n : ℕ}
    (h : x.toUInt64.toNat = n) (hn : n < UInt64.size - 1) : value x = n := by
  have hfin := isFinite_of_isWhole hwhole
  obtain ⟨k, hk⟩ := (isWhole_iff hfin).1 hwhole
  have hvalue := value_pos hpos hfin
  rw [toNat_toUInt64_eq_min hfin, min_eq_iff] at h
  -- The largest number of 64 bits is not reached, so the word was not cut to it.
  have hfloor : ⌊value x⌋₊ = n := by omega
  rw [hk] at hvalue hfloor ⊢
  obtain ⟨j, rfl⟩ := Int.eq_ofNat_of_zero_le (show 0 ≤ k by exact_mod_cast hvalue.le)
  rw [Int.cast_natCast, Nat.floor_natCast] at hfloor
  rw [Int.cast_natCast, hfloor]

theorem slot_eq_ok {index : ℕ} {s : Fin 6} (h : Frames.slot index = .ok s) : index = s.val + 1 := by
  unfold Frames.slot at h
  split_ifs at h with hrange
  cases h
  exact (Nat.sub_add_cancel hrange.1).symm

theorem number_prepared (m : Machine) (b : Block) :
    (m.prepared b).frames.number = (m.selection b).val + 1 := by
  rw [prepared_eq]
  rfl

theorem scale_prepared (m : Machine) (b : Block) :
    (m.prepared b).scale = (m.setUnits b).scale := by
  unfold scale
  rw [prepared_eq, ← inches_applyState]

theorem namesFrame_of_offsetFrame {index : ℕ} {s : Fin 6}
    (h : (m.prepared b).offsetFrame b = .ok index) (hslot : Frames.slot index = .ok s) :
    m.NamesFrame b s := by
  have hindex := slot_eq_ok hslot
  unfold offsetFrame at h
  dsimp only at h
  unfold NamesFrame
  split_ifs at h ⊢ with hzero hwhole
  · cases h
    rw [number_prepared, Nat.add_right_cancel_iff] at hindex
    exact Fin.ext hindex.symm
  · cases h
    have hsize : s.val + 1 < UInt64.size - 1 :=
      Nat.lt_of_le_of_lt (Nat.succ_le_of_lt s.isLt) (by decide)
    rw [value_eq_of_toUInt64 hwhole.1 hwhole.2 hindex hsize]
    push_cast
    rfl

theorem workOffset_eq_ok {frames : Frames} (h : (m.prepared b).workOffset b = .ok frames) :
    (∃ l, b.value? 'L' = some l ∧ Block.sameCode l 2 = true) ∧ ∃ s, m.NamesFrame b s ∧
      frames.offsets = m.frames.offsets.set s (m.offsetWords b) := by
  unfold workOffset at h
  split at h
  · cases h
  · rename_i l hl
    split_ifs at h with hcode
    refine ⟨⟨l, hl, hcode⟩, ?_⟩
    cases hindex : (m.prepared b).offsetFrame b with
    | error e =>
      rw [hindex] at h
      cases h
    | ok index =>
      rw [hindex] at h
      change (Frames.slot index).map _ = _ at h
      cases hslot : Frames.slot index with
      | error e =>
        rw [hslot] at h
        cases h
      | ok s =>
        rw [hslot] at h
        cases h
        refine ⟨s, namesFrame_of_offsetFrame hindex hslot, ?_⟩
        simp only [scale_prepared, offsetWords]
        rw [prepared_eq]

theorem offsets_prepared (m : Machine) (b : Block) :
    (m.prepared b).frames.offsets = m.frames.offsets := by
  rw [prepared_eq]

/-- A block leaves all offsets alone, which it does whenever it ends in a fault or has no `G10`. Or
it is done and has set, with `G10 L2`, the offset of the one frame that it names, to its own
coordinates in its own units. -/
theorem runBlock_offsets (m : Machine) (b : Block) :
    (m.runBlock b).machine.frames.offsets = m.frames.offsets ∧
        ((m.runBlock b).fault ≠ none ∨ b.hasCode 'G' 10 = false) ∨
      (m.runBlock b).fault = none ∧ b.hasCode 'G' 10 = true ∧
        (∃ l, b.value? 'L' = some l ∧ Block.sameCode l 2 = true) ∧
        ∃ s, m.NamesFrame b s ∧ (m.runBlock b).machine.frames.offsets =
          m.frames.offsets.set s (m.offsetWords b) := by
  cases hempty : b.isEmpty with
  | true =>
    rw [runBlock, if_pos hempty]
    exact .inl ⟨rfl, .inr (hasCode_of_isEmpty hempty _ _)⟩
  | false =>
    rw [runBlock, if_neg (Bool.eq_false_iff.1 hempty)]
    have hcourse := apply_course m b
    generalize m.apply b = o at hcourse ⊢
    cases hcourse with
    | unsupported h => exact .inl ⟨rfl, .inl (Option.some_ne_none _)⟩
    | badOffset hb hcode h =>
      exact .inl ⟨offsets_prepared m b, .inl (Option.some_ne_none _)⟩
    | @offset frames hb hcode h =>
      obtain ⟨hl, s, hs, hoffsets⟩ := workOffset_eq_ok h
      refine .inr ⟨rfl, hcode, hl, s, hs, ?_⟩
      have hframes := frames_ready { m.prepared b with frames } b
      exact (congrArg Frames.offsets hframes).trans hoffsets
    | move hb hcode =>
      obtain ⟨path, hmove⟩ := exists_move_eq_withPath ((m.prepared b).ready b) b
      refine .inl ⟨?_, .inr hcode⟩
      rw [← offsets_prepared m b, ← frames_ready (m.prepared b) b]
      exact congrArg (·.frames.offsets) hmove

end Toolpath.Machine
