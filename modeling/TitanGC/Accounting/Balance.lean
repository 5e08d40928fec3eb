import TitanGC.Accounting.Listener

/-!
# The balance of one blob file

The counter of a settled file counts up, and that of a file that waits for the LSM
counts down what is already gone. With the differences of the notifications that
are still to come it makes up what the current tables reference, plus what a range
deletion still has to subtract, plus what one has forgotten. Every handler keeps
this balance when it takes its difference from those to come; nothing is cut off.
-/

namespace TitanGC.Accounting.Balance

open SizeCollector Tracking Listener List

/-! ## Differences that come late -/

theorem sum_nonpos {deltas : List ℤ} (h : ∀ d ∈ deltas, d ≤ 0) : deltas.sum ≤ 0 := by
  induction deltas with
  | nil => exact le_rfl
  | cons d deltas ih =>
    have hd := h d mem_cons_self
    have hsum := ih fun e he => h e (mem_cons_of_mem d he)
    rw [sum_cons]
    omega

/-- At most one of the differences is an increase. -/
def OneIncrease (deltas : List ℤ) : Prop := deltas.Pairwise fun a b => ¬ (0 < a ∧ 0 < b)

theorem sum_lt_of_oneIncrease {deltas : List ℤ} {bound : ℤ} (hone : OneIncrease deltas)
    (hbound : ∀ d ∈ deltas, d < bound) (hpos : 0 < bound) : deltas.sum < bound := by
  induction deltas with
  | nil => exact hpos
  | cons d deltas ih =>
    obtain ⟨hfirst, hrest⟩ := pairwise_cons.mp hone
    have hsum := ih hrest fun e he => hbound e (mem_cons_of_mem d he)
    have hd := hbound d mem_cons_self
    rw [sum_cons]
    by_cases hinc : 0 < d
    · have hnonpos : deltas.sum ≤ 0 :=
        sum_nonpos fun e he => not_lt.mp fun hlt => hfirst e he ⟨hinc, hlt⟩
      omega
    · omega

theorem OneIncrease.perm {deltas deltas' : List ℤ} (h : OneIncrease deltas)
    (hperm : deltas.Perm deltas') : OneIncrease deltas' :=
  hperm.pairwise h fun hab hba => hab ⟨hba.2, hba.1⟩

/-! ## Machine integers -/

section

variable {d : ℤ} (hlow : -2 ^ 63 < d) (hhigh : d < 2 ^ 63)

include hlow hhigh

theorem toInt_ofInt : (Int64.ofInt d).toInt = d :=
  Int64.toInt_ofInt_of_le hlow.le hhigh

theorem ofInt_nonpos : Int64.ofInt d ≤ 0 ↔ d ≤ 0 := by
  rw [Int64.le_iff_toInt_le, toInt_ofInt hlow hhigh]
  exact Iff.rfl

theorem ofInt_neg : Int64.ofInt d < 0 ↔ d < 0 := by
  rw [Int64.lt_iff_toInt_lt, toInt_ofInt hlow hhigh]
  exact Iff.rfl

end

theorem toNat_toUInt64 {d : ℤ} (hpos : 0 ≤ d) (hhigh : d < 2 ^ 63) :
    ((Int64.ofInt d).toUInt64.toNat : ℤ) = d := by
  obtain ⟨n, rfl⟩ := Int.eq_ofNat_of_zero_le hpos
  have hword : (Int64.ofInt (n : ℤ)).toUInt64 = UInt64.ofNat n := by
    rw [Int64.ofInt_eq_ofNat, ← UInt64.toInt64_ofNat', UInt64.toUInt64_toInt64]
  rw [hword, UInt64.toNat_ofNat_of_lt' (by norm_num [UInt64.size]; omega)]

variable {f : TrackedFile}

/-- The size with a difference applied, where neither limit is reached. -/
theorem updateLiveDataSize_eq {d : ℤ} (hpos : 0 ≤ (f.liveDataSize.toNat : ℤ) + d)
    (hhigh : (f.liveDataSize.toNat : ℤ) + d < 2 ^ 63) :
    ∃ size : UInt64, (f.updateLiveDataSize (Int64.ofInt d)).2 = { f with liveDataSize := size } ∧
      (size.toNat : ℤ) = f.liveDataSize.toNat + d := by
  have hresult : f.liveDataSize.toInt64 + Int64.ofInt d = Int64.ofInt (f.liveDataSize.toNat + d) := by
    rw [toInt64_eq, Int64.ofInt_add]
  refine ⟨_, ?_, toNat_toUInt64 hpos hhigh⟩
  have hnot : ¬ Int64.ofInt ((f.liveDataSize.toNat : ℤ) + d) < 0 := by
    rw [ofInt_neg (by omega) hhigh]
    omega
  rw [TrackedFile.updateLiveDataSize, hresult, if_neg hnot]

/-- The size of a new file is its total without what is gone already. -/
theorem sub_recorded (d : ℤ) (size : UInt64) :
    (if size ≠ 0 then Int64.ofInt d - size.toInt64 else Int64.ofInt d) =
      Int64.ofInt (d - size.toNat) := by
  by_cases h : size = 0
  · subst h
    simp
  · rw [if_pos h, toInt64_eq, Int64.ofInt_sub]

/-! ## The balance -/

def value (f : TrackedFile) : ℤ :=
  if f.state = .pendingLSM then -f.liveDataSize.toNat else f.liveDataSize.toNat

/-- `deltas` are the differences to come; `refs` is referenced by the current tables;
`owed` will be subtracted for ranges that are deleted already; `slack` never will. -/
structure Balanced (f : TrackedFile) (refs owed slack : ℕ) (deltas : List ℤ) : Prop where
  states : f.state = .normal ∨ f.state = .pendingLSM ∨ f.state = .toMerge ∨ f.state = .obsolete
  balance : value f + deltas.sum = refs + owed + slack
  bounded : ∀ d ∈ deltas, -2 ^ 63 < d ∧ d < 2 ^ 63
  oneIncrease : OneIncrease deltas
  settled : f.state ≠ .pendingLSM → f.liveDataSize.toNat < 2 ^ 63 ∧ ∀ d ∈ deltas, d ≤ 0
  gone : f.state = .obsolete → f.liveDataSize = 0

theorem Balanced.perm {refs owed slack : ℕ} {deltas deltas' : List ℤ}
    (h : Balanced f refs owed slack deltas) (hperm : deltas.Perm deltas') :
    Balanced f refs owed slack deltas' where
  states := h.states
  balance := hperm.sum_eq ▸ h.balance
  bounded d hd := h.bounded d (hperm.mem_iff.mpr hd)
  oneIncrease := h.oneIncrease.perm hperm
  settled hf := ⟨(h.settled hf).1, fun d hd => (h.settled hf).2 d (hperm.mem_iff.mpr hd)⟩
  gone := h.gone

/-- A settled file without live data is referenced by no table. -/
theorem Balanced.unreferenced {refs owed slack : ℕ} {deltas : List ℤ}
    (h : Balanced f refs owed slack deltas) (hstate : f.state ≠ .pendingLSM)
    (hlive : f.liveDataSize = 0) : refs = 0 ∧ owed = 0 ∧ slack = 0 ∧ deltas.sum = 0 := by
  have hbalance := h.balance
  have hsum : deltas.sum ≤ 0 := sum_nonpos (h.settled hstate).2
  rw [value, if_neg hstate, hlive] at hbalance
  simp only [UInt64.toNat_zero, Nat.cast_zero, zero_add] at hbalance
  omega

section

variable {f : TrackedFile} {refs owed slack : ℕ} {d : ℤ} {rest : List ℤ}

/-- A notification that does not change the file. -/
theorem Balanced.skip (h : Balanced f refs owed slack (0 :: rest)) : Balanced f refs owed slack rest where
  states := h.states
  balance := by
    have hbalance := h.balance
    rwa [sum_cons, zero_add] at hbalance
  bounded e he := h.bounded e (mem_cons_of_mem _ he)
  oneIncrease := (pairwise_cons.mp h.oneIncrease).2
  settled hf := ⟨(h.settled hf).1, fun e he => (h.settled hf).2 e (mem_cons_of_mem _ he)⟩
  gone := h.gone

/-- The state of a settled file may change among the settled ones. -/
theorem Balanced.restate {state : FileState} (h : Balanced f refs owed slack rest)
    (hf : f.state ≠ .pendingLSM)
    (hstate : state = .normal ∨ state = .toMerge ∨ state = .obsolete ∧ f.liveDataSize = 0) :
    Balanced { f with state := state } refs owed slack rest := by
  have hpending : state ≠ .pendingLSM := by
    rcases hstate with rfl | rfl | ⟨rfl, -⟩ <;> decide
  refine ⟨?_, ?_, h.bounded, h.oneIncrease, fun _ => h.settled hf, fun hob => ?_⟩
  · rcases hstate with rfl | rfl | ⟨rfl, -⟩
    · exact .inl rfl
    · exact .inr (.inr (.inl rfl))
    · exact .inr (.inr (.inr rfl))
  · have hbalance := h.balance
    rw [value, if_neg hf] at hbalance
    rw [value, if_neg hpending]
    exact hbalance
  · rcases hstate with rfl | rfl | ⟨-, hlive⟩
    · cases hob
    · cases hob
    · exact hlive

variable (h : Balanced f refs owed slack (d :: rest))

include h

/-- The differences after an increase are decreases. -/
theorem Balanced.rest_nonpos (hd : f.state ≠ .pendingLSM ∨ 0 < d) : ∀ e ∈ rest, e ≤ 0 := by
  intro e he
  rcases hd with hf | hd
  · exact (h.settled hf).2 e (mem_cons_of_mem d he)
  · exact not_lt.mp fun hlt => (pairwise_cons.mp h.oneIncrease).1 e he ⟨hd, hlt⟩

/-- A file gets its first size. -/
theorem Balanced.settle (hf : f.state = .pendingLSM) (hd : 0 < d) :
    Balanced { f with liveDataSize := (Int64.ofInt (d - f.liveDataSize.toNat)).toUInt64, state := .normal }
      refs owed slack rest := by
  have hbalance := h.balance
  have hrest := h.rest_nonpos (.inr hd)
  have hsum : rest.sum ≤ 0 := sum_nonpos hrest
  have hbound := (h.bounded d mem_cons_self).2
  rw [value, if_pos hf, sum_cons] at hbalance
  have hsize := toNat_toUInt64 (d := d - f.liveDataSize.toNat) (by omega) (by omega)
  generalize (Int64.ofInt (d - f.liveDataSize.toNat)).toUInt64 = size at hsize ⊢
  refine ⟨.inl rfl, ?_, fun e he => h.bounded e (mem_cons_of_mem d he),
    (pairwise_cons.mp h.oneIncrease).2, fun _ => ⟨by dsimp only; omega, hrest⟩, nofun⟩
  rw [value, if_neg FileState.noConfusion]
  dsimp only
  omega

/-- A file that waits records a decrease. -/
theorem Balanced.record (hf : f.state = .pendingLSM) (hd : d ≤ 0) :
    Balanced (f.updateLiveDataSize (Int64.ofInt (-d))).2 refs owed slack rest := by
  have hbalance := h.balance
  have hone := (pairwise_cons.mp h.oneIncrease).2
  have hbounded := fun e he => h.bounded e (mem_cons_of_mem d he)
  have hsum := sum_lt_of_oneIncrease hone (fun e he => (hbounded e he).2) (by norm_num)
  rw [value, if_pos hf, sum_cons] at hbalance
  obtain ⟨size, heq, hsize⟩ := updateLiveDataSize_eq (f := f) (d := -d) (by omega) (by omega)
  rw [heq]
  refine ⟨h.states, ?_, hbounded, hone, fun hnot => absurd hf hnot, fun hob => ?_⟩
  · rw [value, if_pos hf]
    dsimp only
    omega
  · rw [hf] at hob
    cases hob

/-- A settled file takes a decrease. -/
theorem Balanced.decrease (hf : f.state ≠ .pendingLSM) (hob : f.state ≠ .obsolete) :
    Balanced (f.updateLiveDataSize (Int64.ofInt d)).2 refs owed slack rest ∧
      (f.updateLiveDataSize (Int64.ofInt d)).2.state = f.state := by
  have hbalance := h.balance
  obtain ⟨hlive, hdeltas⟩ := h.settled hf
  have hd := hdeltas d mem_cons_self
  have hrest := h.rest_nonpos (.inl hf)
  have hsum : rest.sum ≤ 0 := sum_nonpos hrest
  rw [value, if_neg hf, sum_cons] at hbalance
  obtain ⟨size, heq, hsize⟩ := updateLiveDataSize_eq (f := f) (d := d) (by omega) (by omega)
  rw [heq]
  refine ⟨⟨h.states, ?_, fun e he => h.bounded e (mem_cons_of_mem d he),
    (pairwise_cons.mp h.oneIncrease).2, fun _ => ⟨by dsimp only; omega, hrest⟩,
    fun h => absurd h hob⟩, rfl⟩
  rw [value, if_neg hf]
  dsimp only
  omega

end

/-! ## The handlers -/

section

variable {f : TrackedFile} {refs owed slack : ℕ} {d : ℤ} {rest : List ℤ}

theorem noLiveData_iff : f.noLiveData = true ↔ f.liveDataSize = 0 := beq_iff_eq

/-- The notification of the flush that has written the file. -/
theorem flushFile_balanced (h : Balanced f refs owed slack (d :: rest)) (hd : 0 < d) :
    Balanced (flushFile (Int64.ofInt d) f).file refs owed slack rest := by
  have hbound := h.bounded d mem_cons_self
  have hpending : f.state = .pendingLSM := by
    by_contra hf
    have hle := (h.settled hf).2 d mem_cons_self
    omega
  have hnot : ¬ Int64.ofInt d < 0 := by
    rw [ofInt_neg hbound.1 hbound.2]
    omega
  have hsettle := h.settle hpending hd
  rw [flushFile, if_neg (not_not_intro hpending)]
  dsimp only
  rw [if_neg hnot, sub_recorded, TrackedFile.fileStateTransit, if_pos hpending]
  exact hsettle

/-- A verdict that keeps the balance. A file that is to be deleted is settled and has
no live data; a candidate for merging is settled. -/
structure Sound (v : Verdict) (refs owed slack : ℕ) (deltas : List ℤ) : Prop where
  balanced : Balanced v.file refs owed slack deltas
  deleted : v.delete = true → v.file.state ≠ .pendingLSM ∧ v.file.liveDataSize = 0
  candidate : v.candidate = true → v.file.state ≠ .pendingLSM

theorem Balanced.sound (h : Balanced f refs owed slack rest) : Sound { file := f } refs owed slack rest :=
  ⟨h, nofun, nofun⟩

/-- A settled file may be marked for merging. -/
theorem Balanced.needMerge (h : Balanced f refs owed slack rest) (hf : f.state ≠ .pendingLSM) :
    Balanced (f.fileStateTransit .needMerge) refs owed slack rest := by
  rw [TrackedFile.fileStateTransit]
  split
  · exact h
  · exact h.restate hf (.inr (.inl rfl))

/-- All differences of an obsolete file are zero. -/
theorem Balanced.eq_zero_of_obsolete (h : Balanced f refs owed slack (d :: rest))
    (hob : f.state = .obsolete) : d = 0 := by
  have hf : f.state ≠ .pendingLSM := by
    rw [hob]
    decide
  obtain ⟨-, -, -, hsum⟩ := h.unreferenced hf (h.gone hob)
  have hd := (h.settled hf).2 d mem_cons_self
  have hrest : rest.sum ≤ 0 := sum_nonpos (h.rest_nonpos (.inl hf))
  rw [sum_cons] at hsum
  omega

/-- A notification of a compaction. -/
theorem compactFile_sound (o : CFOptions) (run : Bool) (h : Balanced f refs owed slack (d :: rest)) :
    Sound (compactFile o run (Int64.ofInt d) f) refs owed slack rest := by
  have hbound := h.bounded d mem_cons_self
  rw [compactFile]
  by_cases hob : f.state = .obsolete
  · have htrue : f.isObsolete = true := beq_iff_eq.mpr hob
    obtain rfl := h.eq_zero_of_obsolete hob
    rw [if_pos htrue]
    exact h.skip.sound
  · have hfalse : ¬ f.isObsolete = true := mt beq_iff_eq.mp hob
    rw [if_neg hfalse]
    by_cases hpending : f.state = .pendingLSM
    · rw [if_pos hpending]
      by_cases hd : d ≤ 0
      · rw [if_pos ((ofInt_nonpos hbound.1 hbound.2).mpr hd), ← Int64.ofInt_neg]
        exact (h.record hpending hd).sound
      · rw [if_neg (mt (ofInt_nonpos hbound.1 hbound.2).mp hd)]
        dsimp only
        rw [sub_recorded]
        exact ⟨h.settle hpending (not_le.mp hd), fun hdelete => ⟨nofun, noLiveData_iff.mp hdelete⟩,
          fun _ => nofun⟩
    · have hnormal : f.state = .normal ∨ f.state = .toMerge := by
        rcases h.states with hs | hs | hs | hs
        · exact .inl hs
        · exact absurd hs hpending
        · exact .inr hs
        · exact absurd hs hob
      rw [if_neg hpending, if_pos hnormal]
      obtain ⟨hbalanced, hstate⟩ := h.decrease hpending hob
      have hsettled : (f.updateLiveDataSize (Int64.ofInt d)).2.state ≠ .pendingLSM := hstate ▸ hpending
      dsimp only
      split
      · split
        · rename_i hlive
          exact ⟨hbalanced, fun _ => ⟨hsettled, noLiveData_iff.mp hlive⟩, nofun⟩
        · split
          · exact (hbalanced.needMerge hsettled).sound
          · exact ⟨hbalanced, nofun, fun _ => hsettled⟩
      · exact hbalanced.sound

/-- What is owed is subtracted from a settled file. -/
theorem Balanced.subtract {size : ℕ} (h : Balanced f refs (owed + size) slack rest)
    (hf : f.state ≠ .pendingLSM) (hob : f.state ≠ .obsolete) :
    Balanced (f.updateLiveDataSize (Int64.ofInt (-size))).2 refs owed slack rest := by
  have hbalance := h.balance
  obtain ⟨hlive, hdeltas⟩ := h.settled hf
  have hsum := sum_nonpos hdeltas
  rw [value, if_neg hf] at hbalance
  push_cast at hbalance
  obtain ⟨left, heq, hsize⟩ := updateLiveDataSize_eq (f := f) (d := -size) (by omega) (by omega)
  rw [heq]
  refine ⟨h.states, ?_, h.bounded, h.oneIncrease, fun _ => ⟨by dsimp only; omega, hdeltas⟩,
    fun h => absurd h hob⟩
  rw [value, if_neg hf]
  dsimp only
  omega

/-- The accounting of a range deletion, on a file that is settled. -/
theorem rangeFile_sound (o : CFOptions) {size : ℕ} (h : Balanced f refs (owed + size) slack rest)
    (hf : f.state ≠ .pendingLSM) :
    Sound (rangeFile o (Int64.ofInt (-size)) f) refs owed slack rest := by
  rw [rangeFile]
  by_cases hob : f.state = .obsolete
  · have htrue : f.isObsolete = true := beq_iff_eq.mpr hob
    obtain ⟨-, howed, -, -⟩ := h.unreferenced hf (h.gone hob)
    obtain ⟨rfl, rfl⟩ : owed = 0 ∧ size = 0 := by omega
    rw [if_pos htrue]
    exact Balanced.sound h
  · have hfalse : ¬ f.isObsolete = true := mt beq_iff_eq.mp hob
    rw [if_neg hfalse]
    have hbalanced := h.subtract hf hob
    have hsettled : (f.updateLiveDataSize (Int64.ofInt (-size))).2.state ≠ .pendingLSM := by
      rw [(updateLiveDataSize_file f _).2]
      exact hf
    dsimp only
    split
    · split
      · rename_i hlive
        exact ⟨hbalanced, fun _ => ⟨hsettled, noLiveData_iff.mp hlive⟩, nofun⟩
      · split
        · exact (hbalanced.needMerge hsettled).sound
        · exact hbalanced.sound
    · exact hbalanced.sound

end

end TitanGC.Accounting.Balance
