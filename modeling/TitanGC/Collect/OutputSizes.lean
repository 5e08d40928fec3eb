import TitanGC.Collect.HandleProtocol

/-!
# The size of output files

`DoRunGC` asks before each record whether `file_size` has reached `blob_file_target_size`,
but never increases `file_size`. All that a run keeps goes to one output file, which
respects the target only if that is little enough.
-/

namespace TitanGC.Collect.OutputSizes

open Lib.ByteCoding Lib.Draining List Format.Coding Format.BlobFile Format.InternalKey
open Storage.Iterator Storage.Writer Run HandleProtocol
open ReadAll (quiet body_sees)

variable (o : GcOptions) (env : GcEnv)

def filled (number : UInt64) (xs : List Entry) : BlobFileBuilder :=
  xs.foldl (fun b x => (b.add o.builder x.record
      { key := appendInternalKey ⟨x.record.key, 1, kTypeValue⟩
        originalBlobIndex := x.index
        newBlobIndex := { fileNumber := number } }).1)
    (.new o.builder { outcome := env.outcome number } kVersion2)

/-- The encoded records of a file without the last one are less than the target size. -/
def BelowTarget (b : BlobFileBuilder) (xs : List Entry) : Prop :=
  (xs.dropLast.map fun x => (encodeRecord
    (o.builder.compression (b.finish o.builder).1.compressionDict) x.record).length).sum <
      o.blobFileTargetSize

/-- The entries went to the output files one after the other, and each file stopped at the
target size. -/
def RespectsTarget (builders : List (Option OutputFile)) (xs : List Entry) : Prop :=
  ∃ parts, parts.flatten = xs ∧ List.Forall₂ (fun b ys => ∃ out, b = some out ∧
    out.builder = filled o env out.number ys ∧ BelowTarget o out.builder ys) builders parts

/-- Nothing is kept, or the first output file respects the target with all of it. -/
def FitsOneFile (xs : List Entry) : Prop :=
  xs = [] ∨ ∃ n, env.newFile 0 = .ok n ∧ BelowTarget o (filled o env n xs) xs

def kept : GcState → List Entry → List Entry
  | _, [] => []
  | st, x :: xs =>
    (if keeps o env st x then [x] else []) ++
      match body o env st x with
      | .go st => kept st xs
      | .stop _ => []

/-- All entries so far are in the current file, which is the first. With a target of zero
each entry gets a file of its own. -/
structure OneOutput (st : GcState) (xs : List Entry) : Prop where
  fileSize : st.fileSize = 0
  start : xs = [] → st.blobFileBuilders = [] ∧ st.current = none ∧ st.newFiles = 0
  current : xs ≠ [] → 0 < o.blobFileTargetSize → st.blobFileBuilders = [] ∧
    ∃ n, env.newFile 0 = .ok n ∧ st.current = some ⟨n, filled o env n xs⟩

variable {o env} {st st' : GcState} {out : OutputFile} {xs : List Entry} {x : Entry}

theorem OneOutput.ensureOutput (h : OneOutput o env st xs)
    (hensure : ensureOutput o env st = .ok (st', out)) :
    st'.fileSize = 0 ∧ (0 < o.blobFileTargetSize → st'.blobFileBuilders = [] ∧
      env.newFile 0 = .ok out.number ∧ out.builder = filled o env out.number xs) := by
  have hopened : ∀ st₀ : GcState, openOutput o env st₀ = .ok (st', out) → st'.fileSize = 0 ∧
      st'.blobFileBuilders = st₀.blobFileBuilders ∧ env.newFile st₀.newFiles = .ok out.number ∧
      out.builder = filled o env out.number [] := by
    intro st₀ hopen
    rw [openOutput] at hopen
    split at hopen
    · cases hopen
    · rename_i hnew
      cases hopen
      exact ⟨rfl, rfl, hnew, rfl⟩
  rcases ensureOutput_cases o env st with ⟨out', hcurrent, heq⟩ | ⟨hcurrent, heq⟩ | ⟨hfull, heq⟩ <;>
    rw [heq] at hensure
  · cases hensure
    have hne : xs ≠ [] := fun hnil => by
      rw [(h.start hnil).2.1] at hcurrent
      cases hcurrent
    refine ⟨h.fileSize, fun htarget => ?_⟩
    obtain ⟨hbuilders, n, hnew, hfilled⟩ := h.current hne htarget
    rw [hcurrent] at hfilled
    cases hfilled
    exact ⟨hbuilders, hnew, rfl⟩
  · obtain ⟨hsize, hbuilders, hnew, hbuilder⟩ := hopened st hensure
    refine ⟨hsize, fun htarget => ?_⟩
    have hnil : xs = [] := by
      by_contra hne
      obtain ⟨-, n, -, hfilled⟩ := h.current hne htarget
      rw [hcurrent] at hfilled
      cases hfilled
    obtain ⟨hstart, -, hfirst⟩ := h.start hnil
    rw [hfirst] at hnew
    rw [hnil]
    exact ⟨hbuilders.trans hstart, hnew, hbuilder⟩
  · rw [h.fileSize] at hfull
    exact ⟨(hopened _ hensure).1, fun htarget => absurd hfull (Nat.not_le.mpr htarget)⟩

theorem OneOutput.rewriteEntry (h : OneOutput o env st xs) (hmode : o.fallback = false)
    (hgo : rewriteEntry o env st x = .go st') : OneOutput o env st' (xs ++ [x]) := by
  rw [Run.rewriteEntry, hmode] at hgo
  cases hensure : Run.ensureOutput o env st with
  | error st₁ =>
    rw [hensure] at hgo
    cases hgo
  | ok result =>
    obtain ⟨st₁, out⟩ := result
    obtain ⟨hsize, hfirst⟩ := h.ensureOutput hensure
    rw [hensure] at hgo
    simp only [Bool.false_eq_true, ↓reduceIte, writeEntry] at hgo
    split at hgo
    · cases hgo
    · cases hgo
      refine ⟨hsize, fun hnil => absurd hnil (append_ne_nil_of_right_ne_nil _ (cons_ne_nil _ _)),
        fun _ htarget => ?_⟩
      obtain ⟨hbuilders, hnew, hbuilder⟩ := hfirst htarget
      refine ⟨hbuilders, out.number, hnew, ?_⟩
      rw [filled, foldl_append, ← filled, ← hbuilder]
      rfl

theorem OneOutput.body (h : OneOutput o env st xs) (hmode : o.fallback = false)
    (hgo : body o env st x = .go st') :
    OneOutput o env st' (xs ++ if keeps o env st x then [x] else []) := by
  obtain ⟨key, fresh, ⟨hkeeps, ⟨e, hbody, -⟩ | hbody⟩ | ⟨hkeeps, hbody⟩⟩ := body_cases o env st x <;>
    rw [hbody] at hgo
  · cases hgo
  · cases hgo
    rw [hkeeps, if_neg Bool.false_ne_true, append_nil]
    exact ⟨h.fileSize, h.start, h.current⟩
  · rw [hkeeps, if_pos rfl]
    have hseen : OneOutput o env (seen st x key fresh) xs := ⟨h.fileSize, h.start, h.current⟩
    exact hseen.rewriteEntry hmode hgo

/-- With the current file among the outputs. -/
theorem OneOutput.respects_iff (h : OneOutput o env st xs) :
    RespectsTarget o env (st.blobFileBuilders ++ (st.current.map some).toList) xs ↔
      FitsOneFile o env xs := by
  by_cases hnil : xs = []
  · obtain ⟨hbuilders, hcurrent, -⟩ := h.start hnil
    rw [hcurrent, hbuilders, hnil]
    exact ⟨fun _ => .inl rfl, fun _ => ⟨[], rfl, .nil⟩⟩
  · rw [FitsOneFile, or_iff_right hnil]
    rcases Nat.eq_zero_or_pos o.blobFileTargetSize with hzero | htarget
    · have hnot : ∀ b ys, ¬ BelowTarget o b ys := fun b ys hbelow => by
        rw [BelowTarget, hzero] at hbelow
        exact absurd hbelow (Nat.not_lt_zero _)
      refine ⟨fun hrespects => ?_, fun ⟨_, _, hbelow⟩ => absurd hbelow (hnot _ _)⟩
      obtain ⟨parts, hparts, hall⟩ := hrespects
      cases parts with
      | nil => exact absurd hparts.symm hnil
      | cons ys parts =>
        obtain ⟨b, rest, ⟨out, -, -, hbelow⟩, -⟩ := forall₂_cons_right_iff.mp hall
        exact absurd hbelow (hnot _ _)
    · obtain ⟨hbuilders, n, hnew, hcurrent⟩ := h.current hnil htarget
      rw [hcurrent, hbuilders]
      constructor
      · rintro ⟨parts, hparts, hall⟩
        obtain ⟨ys, rest, ⟨out, hout, -, hbelow⟩, hrest, rfl⟩ := forall₂_cons_left_iff.mp hall
        cases hrest
        cases hout
        rw [flatten_singleton] at hparts
        rw [hparts] at hbelow
        exact ⟨n, hnew, hbelow⟩
      · rintro ⟨n', hnew', hbelow⟩
        rw [hnew] at hnew'
        cases hnew'
        exact ⟨[xs], flatten_singleton, .cons ⟨_, rfl, rfl, hbelow⟩ .nil⟩

section

variable {compare : Bytes → Bytes → Ordering} {ienv : Env}
  {heap : PriorityQueue BlobFileIterator (KeyAfter compare)}

theorem OneOutput.loop (h : OneOutput o env st xs) (hmode : o.fallback = false) {fuel : Nat}
    {mi mi' : BlobFileMergeIterator} (hst : st.status = none)
    (hloop : loop ienv heap o env fuel mi st = some (mi', st')) (hok : st'.status = none) :
    ∃ l, st'.read = st.read ++ l ∧ OneOutput o env st' (xs ++ kept o env st l) := by
  induction fuel generalizing mi st xs with
  | zero => cases hloop
  | succ fuel ih =>
    rw [Run.loop] at hloop
    split at hloop
    · cases hloop
      refine ⟨[], (append_nil _).symm, ?_⟩
      rwa [kept, append_nil]
    · rename_i x hitem
      have hsees := body_sees o env x hst
      split at hloop
      · rename_i st₁ hstep
        cases hloop
        rw [hstep] at hsees
        exact absurd hok hsees
      · rename_i st₁ hstep
        rw [hstep] at hsees
        obtain ⟨l, hread, hone⟩ := ih (h.body hmode hstep) hsees.1 hloop
        refine ⟨x :: l, ?_, ?_⟩
        · rw [hread, hsees.2, append_assoc, singleton_append]
        · rw [kept, hstep, ← append_assoc]
          exact hone

/-- A run that ends with OK respects the target exactly if what it keeps does in one file. -/
theorem doRunGC_respects_iff (hmode : o.fallback = false) {storageFound : Bool} {inputs : List InputFile}
    {fuel : Nat} (hrun : doRunGC ienv heap o env storageFound inputs fuel = some st)
    (hok : st.status = none) :
    RespectsTarget o env st.blobFileBuilders (kept o env {} st.read) ↔
      FitsOneFile o env (kept o env {} st.read) := by
  obtain ⟨mi₀, mi, st₁, hloop, hst, -, hread, hbuilders⟩ := doRunGC_ok ienv heap o env hrun hok
  have hstart : OneOutput o env {} [] := ⟨rfl, fun _ => ⟨rfl, rfl, rfl⟩, fun hne => absurd rfl hne⟩
  obtain ⟨l, hl, hone⟩ := hstart.loop hmode rfl hloop hst
  rw [nil_append] at hl hone
  rw [hbuilders, hread, hl]
  exact hone.respects_iff

end

def keptBy (j : Job) : List Entry := kept j.o j.env {} j.result.read

/-- Every job in normal mode whose run ends with OK respects the target size exactly if it
keeps nothing, or what it keeps without the last record is less than the target. -/
theorem outputs_respect_target_iff (j : Job) (hmode : j.o.fallback = false)
    (hok : j.result.status = none) :
    RespectsTarget j.o j.env j.result.blobFileBuilders (keptBy j) ↔ FitsOneFile j.o j.env (keptBy j) :=
  doRunGC_respects_iff hmode j.ran hok

theorem outputs_respect_target_two :
    RespectsTarget smallTarget quiet collectsTwo.result.blobFileBuilders (keptBy collectsTwo) ↔
      FitsOneFile smallTarget quiet (keptBy collectsTwo) :=
  outputs_respect_target_iff collectsTwo rfl (Option.isNone_iff_eq_none.mp collectTwo_ok.2)

/-- Both records go to one output file, although the target is a single byte. -/
theorem output_exceeds_target :
    ¬ RespectsTarget smallTarget quiet collectsTwo.result.blobFileBuilders (keptBy collectsTwo) := by
  have hkept : (keptBy collectsTwo).length = 2 := by decide +kernel
  have hsize : ¬ BelowTarget smallTarget (filled smallTarget quiet 0 (keptBy collectsTwo))
      (keptBy collectsTwo) := by
    unfold BelowTarget
    decide +kernel
  intro h
  rcases (doRunGC_respects_iff rfl collectsTwo.ran
    (Option.isNone_iff_eq_none.mp collectTwo_ok.2)).mp h with hnil | ⟨n, hnew, hbelow⟩
  · rw [show keptBy collectsTwo = [] from hnil] at hkept
    cases hkept
  · cases hnew
    exact hsize hbelow

end TitanGC.Collect.OutputSizes
