import TitanGC.Kernel.Driver
import TitanGC.Storage.BuilderErrors

/-!
# Recorded key ranges

`BlobFileBuilder::Add` and the loop of `DoRunGCOnHardware` keep the range of the keys they
have seen. The empty string stands for no key yet, so that an empty user key is taken for
it: an end of the range that is the empty key starts again with the key that follows. In
the loop the upper end starts again with the lower one.
-/

namespace TitanGC.Storage.KeyRanges

open Lib.ByteCoding List Format.BlobFile
open Builder (Survivor)
open Kernel.GcKernel (DeviceInput)
open Kernel.Readback Kernel.Driver Writer
open BuilderErrors (Call exec dictionaryOptions)

/-! ## An end that starts again -/

section

variable {α : Type} (R : List α → Prop) (le : α → α → Prop) [DecidableRel le]

/-- The end `f ks` of the keys `ks`, which starts again behind the lists in `R`. -/
structure Keeps (f : List α → α) : Prop where
  total : ∀ a b, le a b ∨ le b a
  trans : ∀ {a b c}, le a b → le b c → le a c
  nil : R []
  start : ∀ {ks} k, R ks → f (ks ++ [k]) = k
  go : ∀ {ks} k, ¬ R ks → f (ks ++ [k]) = if le k (f ks) then f ks else k

/-- The keys are `pre`, and those since the last start, of which `l` is the greatest. -/
structure Since (ks : List α) (l : α) (pre suf : List α) : Prop where
  split : ks = pre ++ suf
  start : R pre
  mem : l ∈ suf
  bound : ∀ k ∈ suf, le k l
  latest : ∀ pre' suf', ks = pre' ++ suf' → suf' ≠ [] → R pre' → suf <:+ suf'

/-- When the end starts again, a key at least as great as each before is still to come. -/
def Kept (ks : List α) : Prop :=
  ∀ pre suf, ks = pre ++ suf → suf ≠ [] → R pre → ∀ k ∈ pre, ∃ k' ∈ suf, le k k'

variable {R le} {f : List α → α} {ks : List α}

theorem append_singleton_eq {k : α} {pre suf : List α} (h : ks ++ [k] = pre ++ suf) (hsuf : suf ≠ []) :
    ∃ suf', suf = suf' ++ [k] ∧ ks = pre ++ suf' := by
  rcases eq_nil_or_concat suf with rfl | ⟨suf', x, rfl⟩
  · exact absurd rfl hsuf
  · rw [concat_eq_append, ← append_assoc] at h
    obtain ⟨hks, hx⟩ := append_inj' h rfl
    exact ⟨suf', by rw [concat_eq_append, singleton_inj.mp hx], hks⟩

theorem Since.extend (h : Keeps R le f) {l : α} {pre suf : List α} (hl : Since R le ks l pre suf)
    (hgo : ¬ R ks) (k : α) : Since R le (ks ++ [k]) (if le k l then l else k) pre (suf ++ [k]) := by
  have hmax : le l (if le k l then l else k) ∧ le k (if le k l then l else k) := by
    split
    · exact ⟨(h.total l l).elim id id, ‹_›⟩
    · exact ⟨(h.total k l).resolve_left ‹_›, (h.total k k).elim id id⟩
  refine ⟨by rw [hl.split, append_assoc], hl.start, ?_, fun x hx => ?_, fun pre' suf' hsplit hsuf hr => ?_⟩
  · split
    · exact mem_append_left _ hl.mem
    · exact mem_append_right _ (mem_singleton.mpr rfl)
  · rcases mem_append.mp hx with hx | hx
    · exact h.trans (hl.bound x hx) hmax.1
    · exact mem_singleton.mp hx ▸ hmax.2
  · obtain ⟨suf', rfl, hks⟩ := append_singleton_eq hsplit hsuf
    have hne : suf' ≠ [] := by
      rintro rfl
      exact hgo (by rwa [hks, append_nil])
    obtain ⟨mid, hmid⟩ := hl.latest pre' suf' hks hne hr
    exact ⟨mid, by rw [← hmid, append_assoc]⟩

theorem Keeps.since (h : Keeps R le f) (hks : ks ≠ []) : ∃ pre suf, Since R le ks (f ks) pre suf := by
  induction ks using List.reverseRecOn with
  | nil => exact absurd rfl hks
  | append_singleton ks k ih =>
    by_cases hr : R ks
    · rw [h.start k hr]
      refine ⟨ks, [k], rfl, hr, mem_singleton.mpr rfl, fun x hx => ?_, fun pre suf hsplit hsuf _ => ?_⟩
      · exact mem_singleton.mp hx ▸ (h.total x x).elim id id
      · obtain ⟨suf', rfl, -⟩ := append_singleton_eq hsplit hsuf
        exact suffix_append suf' [k]
    · obtain ⟨pre, suf, hl⟩ := ih fun hnil => hr (hnil ▸ h.nil)
      rw [h.go k hr]
      exact ⟨pre, suf ++ [k], hl.extend h hr k⟩

theorem Keeps.covers_iff (h : Keeps R le f) : (∀ k ∈ ks, le k (f ks)) ↔ Kept R le ks := by
  by_cases hks : ks = []
  · subst hks
    exact iff_of_true (fun k hk => absurd hk not_mem_nil)
      fun pre suf hsplit hsuf => absurd (append_eq_nil_iff.mp hsplit.symm).2 hsuf
  obtain ⟨pre, suf, hl⟩ := h.since hks
  constructor
  · intro hle pre' suf' hsplit hsuf hr k hk
    refine ⟨f ks, (hl.latest pre' suf' hsplit hsuf hr).mem hl.mem, hle k ?_⟩
    rw [hsplit]
    exact mem_append_left _ hk
  · intro hkept k hk
    rw [hl.split] at hk
    rcases mem_append.mp hk with hk | hk
    · obtain ⟨k', hk', hle⟩ := hkept pre suf hl.split (ne_nil_of_mem hl.mem) hl.start k hk
      exact h.trans hle (hl.bound k' hk')
    · exact hl.bound k hk

end

/-! ## Comparators -/

section

variable (cmp : Bytes → Bytes → Ordering)

abbrev AtMost (a b : Bytes) : Prop := (cmp a b).isLE

abbrev AtLeast (a b : Bytes) : Prop := (cmp b a).isLE

def Covers (r : Bytes × Bytes) (ks : List Bytes) : Prop := ∀ k ∈ ks, AtLeast cmp k r.1 ∧ AtMost cmp k r.2

def extend (r : Bytes × Bytes) (key : Bytes) : Bytes × Bytes :=
  (if r.1.isEmpty ∨ cmp key r.1 = .lt then key else r.1, if r.2.isEmpty ∨ cmp key r.2 = .gt then key else r.2)

def hostExtend (r : Bytes × Bytes) (key : Bytes) : Bytes × Bytes :=
  let r := if r.1.isEmpty then (key, key) else r
  (if cmp key r.1 = .lt then key else r.1, if cmp key r.2 = .gt then key else r.2)

def rangeOf (step : Bytes × Bytes → Bytes → Bytes × Bytes) (ks : List Bytes) : Bytes × Bytes :=
  ks.foldl step ([], [])

theorem rangeOf_append {step : Bytes × Bytes → Bytes → Bytes × Bytes} (ks : List Bytes) (k : Bytes) :
    rangeOf step (ks ++ [k]) = step (rangeOf step ks) k := foldl_append

theorem upper_eq (a k : Bytes) : (if cmp k a = .gt then k else a) = if AtMost cmp k a then a else k := by
  by_cases h : cmp k a = .gt
  · simp [h]
  · simp [h, Ordering.ne_gt_iff_isLE.mp h]

variable [Std.TransCmp cmp]

theorem swapped (a b : Bytes) : cmp b a = (cmp a b).swap := Std.OrientedCmp.eq_swap

theorem atMost_total (a b : Bytes) : AtMost cmp a b ∨ AtMost cmp b a := by
  rw [AtMost, AtMost, swapped cmp a b]
  cases cmp a b <;> simp

theorem lower_eq (a k : Bytes) : (if cmp k a = .lt then k else a) = if AtLeast cmp k a then a else k := by
  have hswap := swapped cmp k a
  cases h : cmp k a <;> simp [hswap, h]

/-- A lower end. -/
theorem keeps_lower {step : Bytes × Bytes → Bytes → Bytes × Bytes}
    (h : ∀ r k, (step r k).1 = if r.1 = [] then k else if cmp k r.1 = .lt then k else r.1) :
    Keeps (fun ks => (rangeOf step ks).1 = []) (AtLeast cmp) fun ks => (rangeOf step ks).1 where
  total a b := atMost_total cmp b a
  trans hab hbc := Std.TransCmp.isLE_trans hbc hab
  nil := rfl
  start k hr := by rw [rangeOf_append, h, if_pos hr]
  go k hr := by rw [rangeOf_append, h, if_neg hr, lower_eq]

/-- An upper end, which starts again behind the lists in `R`. -/
theorem keeps_upper {step : Bytes × Bytes → Bytes → Bytes × Bytes}
    (R : Bytes × Bytes → Prop) [DecidablePred R]
    (hnil : R ([], [])) (h : ∀ r k, (step r k).2 = if R r then k else if cmp k r.2 = .gt then k else r.2) :
    Keeps (fun ks => R (rangeOf step ks)) (AtMost cmp) fun ks => (rangeOf step ks).2 where
  total := atMost_total cmp
  trans := Std.TransCmp.isLE_trans
  nil := hnil
  start k hr := by rw [rangeOf_append, h, if_pos hr]
  go k hr := by rw [rangeOf_append, h, if_neg hr, upper_eq]

/-- No end of the range forgets a key: at each start of the lower and of the upper end. -/
def KeepsEnds (step : Bytes × Bytes → Bytes → Bytes × Bytes) (R : Bytes × Bytes → Prop)
    (ks : List Bytes) : Prop :=
  Kept (fun ks => (rangeOf step ks).1 = []) (AtLeast cmp) ks ∧
    Kept (fun ks => R (rangeOf step ks)) (AtMost cmp) ks

theorem extend_covers_iff (ks : List Bytes) :
    Covers cmp (rangeOf (extend cmp) ks) ks ↔ KeepsEnds cmp (extend cmp) (fun r => r.2 = []) ks := by
  rw [Covers, forall₂_and]
  refine and_congr (keeps_lower cmp fun r k => ?_).covers_iff
    (keeps_upper cmp (·.2 = []) rfl fun r k => ?_).covers_iff
  all_goals simp only [extend, List.isEmpty_iff, ite_or]

theorem hostExtend_covers_iff (ks : List Bytes) :
    Covers cmp (rangeOf (hostExtend cmp) ks) ks ↔ KeepsEnds cmp (hostExtend cmp) (fun r => r.1 = []) ks := by
  rw [Covers, forall₂_and]
  refine and_congr (keeps_lower cmp fun r k => ?_).covers_iff
    (keeps_upper cmp (·.1 = []) rfl fun r k => ?_).covers_iff
  all_goals
    simp only [hostExtend, List.isEmpty_iff]
    split <;> simp

end

/-! ## The builder -/

section

variable (o : BuilderOptions)

def range (b : BlobFileBuilder) : Bytes × Bytes := (b.smallestKey, b.largestKey)

@[simp] theorem writeEncoderData_range (b : BlobFileBuilder) (record : Bytes) :
    range (b.writeEncoderData o record).1 = range b := by
  unfold BlobFileBuilder.writeEncoderData
  dsimp only
  split <;> rfl

theorem flushContexts_range (b : BlobFileBuilder) (samples : List Bytes) (ctxs : List BlobRecordContext) :
    range (b.flushContexts o samples ctxs).1 = range b := by
  induction ctxs generalizing b samples with
  | nil => simp [BlobFileBuilder.flushContexts]
  | cons ctx ctxs ih =>
    cases hvalue : ctx.hasValue with
    | true => simp [BlobFileBuilder.flushContexts, hvalue, ih]
    | false => cases samples <;> simp [BlobFileBuilder.flushContexts, hvalue, ih]

@[simp] theorem enterUnbuffered_range (b : BlobFileBuilder) : range (b.enterUnbuffered o).1 = range b :=
  flushContexts_range o ..

@[simp] theorem writeRawBlock_range (b : BlobFileBuilder) (block : Bytes) :
    range (b.writeRawBlock block).1 = range b := by
  unfold BlobFileBuilder.writeRawBlock
  dsimp only
  split <;> rfl

@[simp] theorem writeFooter_range (b : BlobFileBuilder) (handle : BlockHandle) :
    range (b.writeFooter handle) = range b := by
  unfold BlobFileBuilder.writeFooter
  dsimp only
  split <;> rfl

theorem finish_range (b : BlobFileBuilder) : range (b.finish o).1 = range b := by
  unfold BlobFileBuilder.finish
  cases b.builderState <;> split_ifs <;> simp [BlobFileBuilder.writeMetaBlocks]

theorem extendRange_range (b : BlobFileBuilder) (key : Bytes) :
    range (b.extendRange o key) = extend o.compare (range b) key := by
  by_cases hlow : b.smallestKey.isEmpty ∨ o.compare key b.smallestKey = .lt <;>
    by_cases hhigh : b.largestKey.isEmpty ∨ o.compare key b.largestKey = .gt <;>
    simp only [BlobFileBuilder.extendRange, extend, range, hlow, hhigh, ↓reduceIte]

theorem add_range {b : BlobFileBuilder} (hok : b.ok = true) (record : BlobRecord)
    (ctx : BlobRecordContext) : range (b.add o record ctx).1 = extend o.compare (range b) record.key := by
  simp only [BlobFileBuilder.add, hok, ↓reduceIte]
  cases b.builderState with
  | unbuffered => rw [extendRange_range, writeEncoderData_range]
  | buffered =>
    dsimp only
    split
    · rw [extendRange_range, enterUnbuffered_range]
      rfl
    · rw [extendRange_range]
      rfl

/-- The keys of the records that the builder takes. -/
def takes (b : BlobFileBuilder) : List Call → List Bytes
  | [] => []
  | .add record ctx h :: calls =>
    (if b.ok then [record.key] else []) ++ takes (exec o b (.add record ctx h)) calls
  | call :: calls => takes (exec o b call) calls

theorem foldl_exec_range (b : BlobFileBuilder) (calls : List Call) :
    range (calls.foldl (exec o) b) = (takes o b calls).foldl (extend o.compare) (range b) := by
  induction calls generalizing b with
  | nil => rfl
  | cons call calls ih =>
    rw [foldl_cons, ih]
    cases call with
    | add record ctx h =>
      rw [takes, exec]
      cases hok : b.ok with
      | false => simp [BlobFileBuilder.add_failed o hok]
      | true => simp [add_range o hok]
    | addSmall ctx h => rfl
    | finish =>
      exact congrArg ((takes o (exec o b .finish) calls).foldl (extend o.compare)) (finish_range o b)

theorem new_range (file : WritableFile) (version : UInt32) :
    range (BlobFileBuilder.new o file version) = ([], []) := by
  unfold BlobFileBuilder.new
  dsimp only
  split_ifs <;> rfl

end

theorem outputKeysFrom_keys (offset : Nat) (xs : List Survivor) :
    (outputKeysFrom offset xs).map (·.key) = xs.map (·.record.key) := by
  induction xs generalizing offset with
  | nil => rfl
  | cons x xs ih => exact congrArg _ (ih _)

/-- The range covers the keys if and only if no end forgets one. -/
theorem recorded_range_covers_iff (o : BuilderOptions) [Std.TransCmp o.compare] (file : WritableFile)
    (version : UInt32) (calls : List Call) (run : KernelRun) :
    (Covers o.compare (range (calls.foldl (exec o) (.new o file version)))
        (takes o (.new o file version) calls) ↔
      KeepsEnds o.compare (extend o.compare) (fun r => r.2 = []) (takes o (.new o file version) calls)) ∧
    ∃ ks, getOutputKeys run.out.key run.out.rewriteKeyNum 0 = some ks ∧
      (Covers o.compare (rangeOf (hostExtend o.compare) (ks.map (·.key))) (run.kept.map (·.record.key)) ↔
        KeepsEnds o.compare (hostExtend o.compare) (fun r => r.1 = []) (run.kept.map (·.record.key))) := by
  refine ⟨?_, _, run.outputKeys, ?_⟩
  · rw [foldl_exec_range, new_range]
    exact extend_covers_iff ..
  · rw [outputKeysFrom_keys]
    exact hostExtend_covers_iff ..

def byLength : BuilderOptions := { dictionaryOptions with compare := compareOn List.length }

def newFile : WritableFile := { outcome := fun _ => none }

def addEmpty : List Call := [.add ⟨[], []⟩ { key := [] } rfl, .add ⟨[1], []⟩ { key := [1] } rfl, .finish]

theorem recorded_range_covers_byLength :
    Covers byLength.compare (range (addEmpty.foldl (exec byLength) (.new byLength newFile kVersion2)))
      [[], [1]] ↔ KeepsEnds byLength.compare (extend byLength.compare) (fun r => r.2 = []) [[], [1]] :=
  have : Std.TransCmp byLength.compare := inferInstanceAs (Std.TransCmp (compareOn List.length))
  (recorded_range_covers_iff byLength newFile kVersion2 addEmpty (keepAllRun longKeys_staged)).1

/-- The empty key is the smallest until the next key comes, in the builder and in the loop. -/
theorem empty_key_outside :
    ¬ Covers byLength.compare
        (range (addEmpty.foldl (exec byLength) (.new byLength newFile kVersion2))) [[], [1]] ∧
      ¬ Covers byLength.compare (rangeOf (hostExtend byLength.compare) [[], [1]]) [[], [1]] := by
  rw [foldl_exec_range, new_range]
  exact ⟨fun h => absurd (h [] (by decide)).1 (by decide), fun h => absurd (h [] (by decide)).1 (by decide)⟩

end TitanGC.Storage.KeyRanges
