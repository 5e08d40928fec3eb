import TitanGC.Collect.Install
import TitanGC.Collect.ReadAll
import TitanGC.Table.Handles

/-!
# Handles that are not passed on

Table builders and software garbage collection jobs get their files from the file manager,
and owe it a `FinishFile` or `DeleteFile` for each. A table builder that is abandoned
drops its finished files, and so does a job whose run does not end with OK; both
dereference a null handle after some failures. Where all handles are passed on, what is
left behind are the files whose request has failed. A hardware job gets no handle.
-/

namespace TitanGC.Collect.HandleProtocol

open Lib.ByteCoding Lib.Runs Lib.Draining List Format.Coding Format.BlobFile Format.InternalKey
open Storage.Iterator Storage.Writer Storage.FileManager Table.Builder Run Install
open FaultyInputs (plainFile)
open ReadAll (plainEnv plainOptions quiet twoRecordFile)
open Table.Handles (Call Closes Owns OwnsSome adds deletes finishedNumbers start)

/-! ## Table builders -/

section

variable (o : TableOptions) (env : TableEnv)

/-- What the calls of a run pass to `DeleteFile`. -/
def deletesAlong : Option TitanTableBuilder → List Call → List Release
  | _, [] => []
  | none, _ :: _ => []
  | some t, call :: calls =>
      deletes o env t call ++ deletesAlong (Table.Handles.exec o env (some t) call) calls

/-- How the builder is ended after the `Add` calls. -/
inductive Ending where
  | finish | abandon
  deriving Repr, DecidableEq

def Ending.call : Ending → Call
  | .finish => .finish
  | .abandon => .abandon

def Ending.releases (t : TitanTableBuilder) : Ending → List Release
  | .finish => [.finish (finishedNumbers t)]
  | .abandon => []

/-- A table builder from its first `Add` to its end; `none` if it has dereferenced a null
handle. -/
def tableEnded (baseOutcome : Nat → Option Status) (entries : List (Bytes × Bytes)) (ending : Ending) :
    Option Ended :=
  let calls := adds entries ++ [ending.call]
  (calls.foldl (Table.Handles.exec o env) (some (start baseOutcome))).map fun t =>
    { obtained := granted env.newFile t.newFiles
      releases := deletesAlong o env (some (start baseOutcome)) calls ++ ending.releases t }

/-- Up to the last call nothing is deleted where no file is lost. -/
theorem deletesAlong_closes {s : Option TitanTableBuilder} (h : OwnsSome env s) {calls : List Call}
    (hcloses : Along (Table.Handles.exec o env) (Closes o env) s calls) (last : Call) :
    deletesAlong o env s (calls ++ [last]) =
      deletesAlong o env (calls.foldl (Table.Handles.exec o env) s) [last] := by
  induction calls generalizing s with
  | nil => rfl
  | cons call calls ih =>
    have hnext := Table.Handles.exec_ownsSome o env h hcloses.1
    obtain ⟨t, rfl, howns⟩ := h
    obtain ⟨t', -, hgood, -⟩ := Table.Handles.exec_spec o env howns call
    rw [cons_append, deletesAlong, (hgood hcloses.1).2.1, nil_append, foldl_cons]
    exact ih hnext hcloses.2

theorem abandon_finishedBlobs {t t' : TitanTableBuilder} (h : t.abandon env = some t') :
    t'.finishedBlobs = t.finishedBlobs := by
  rw [TitanTableBuilder.abandon] at h
  split at h
  · cases h
    rfl
  · split at h
    · cases h
    · cases h
      rfl

/-- What is passed on at the end of a builder that has lost no file. -/
theorem ending_follows_iff {t : TitanTableBuilder} (h : Owns env t) (ending : Ending) :
    ∃ t', Table.Handles.exec o env (some t) ending.call = some t' ∧
      (Ended.Follows
        { obtained := granted env.newFile t'.newFiles
          releases := deletes o env t ending.call ++ ending.releases t' } ↔
            (ending = .abandon → t.finishedBlobs = [])) := by
  obtain ⟨t', hexec, hgood, hbad⟩ := Table.Handles.exec_spec o env h ending.call
  refine ⟨t', hexec, ?_⟩
  rw [Ended.Follows, Ended.released, flatMap_append]
  cases ending with
  | finish =>
    refine ⟨fun _ hending => absurd hending (by decide), fun _ => ?_⟩
    by_cases hcloses : Closes o env (some t) Ending.finish.call
    · obtain ⟨howns, hdeletes, hhandle⟩ := hgood hcloses
      have hobtained := howns.obtained
      rw [hhandle rfl, Option.toList_none, append_nil] at hobtained
      rw [hdeletes, hobtained]
      simp [Ending.releases, Release.numbers]
    · obtain ⟨number, hlost, hdeletes⟩ := hbad hcloses
      rw [hdeletes, hlost.obtained]
      simp only [Ending.releases, flatMap_cons, flatMap_nil, Release.numbers, append_nil]
      exact perm_append_comm
  | abandon =>
    have hfinished : finishedNumbers t' = finishedNumbers t :=
      congrArg (List.map FinishedBlob.number) (abandon_finishedBlobs env hexec)
    have hnil : finishedNumbers t = [] ↔ t.finishedBlobs = [] := map_eq_nil_iff
    -- what is passed on is the tail of what has been obtained
    have hlength : ∀ released : List UInt64, granted env.newFile t'.newFiles = finishedNumbers t ++ released →
        (released.Perm (granted env.newFile t'.newFiles) ↔ t.finishedBlobs = []) := by
      intro released heq
      rw [heq, ← hnil]
      constructor
      · intro hperm
        have hlen := hperm.length_eq
        rw [length_append] at hlen
        exact length_eq_zero_iff.mp (by omega)
      · intro hnone
        rw [hnone, nil_append]
    have hiff : ∀ p : Prop, (Ending.abandon = Ending.abandon → p) ↔ p :=
      fun p => ⟨fun h => h rfl, fun h _ => h⟩
    rw [hiff, Ending.releases, flatMap_nil, append_nil]
    by_cases hcloses : Closes o env (some t) Ending.abandon.call
    · obtain ⟨howns, hdeletes, -⟩ := hgood hcloses
      have hhandle : t'.blobHandle = none := by
        have hnone := hcloses.2 rfl
        have hsame : t' = t := by
          have hexec' : t.abandon env = some t' := hexec
          rw [TitanTableBuilder.abandon, hnone] at hexec'
          exact (Option.some.inj hexec').symm
        rw [hsame, ← Option.isNone_iff_eq_none, ← Option.not_isSome, ← h.held, hnone]
        rfl
      have hobtained := howns.obtained
      rw [hhandle, hfinished] at hobtained
      rw [hdeletes]
      exact hlength [] hobtained
    · obtain ⟨number, hlost, hdeletes⟩ := hbad hcloses
      have hobtained := hlost.obtained
      rw [hfinished] at hobtained
      rw [hdeletes]
      exact hlength [number] hobtained

/-- A table builder passes on every handle exactly if its `Add` calls lose no file, and no
finished file is there when it is abandoned. -/
theorem tableEnded_follows_iff (baseOutcome : Nat → Option Status) (entries : List (Bytes × Bytes))
    (ending : Ending) :
    (∃ e, tableEnded o env baseOutcome entries ending = some e ∧ e.Follows) ↔
      Along (Table.Handles.exec o env) (Closes o env) (some (start baseOutcome)) (adds entries) ∧
        (ending = .abandon → ∀ t, (adds entries).foldl (Table.Handles.exec o env)
          (some (start baseOutcome)) = some t → t.finishedBlobs = []) := by
  have hstart : OwnsSome env (some (start baseOutcome)) :=
    ⟨_, rfl, Table.Handles.start_owns env baseOutcome⟩
  have hlast : ending.call = .finish ∨ ending.call = .abandon := by
    cases ending
    · exact .inl rfl
    · exact .inr rfl
  have hiff : Along (Table.Handles.exec o env) (Closes o env) (some (start baseOutcome)) (adds entries) →
      ((∃ e, tableEnded o env baseOutcome entries ending = some e ∧ e.Follows) ↔
        (ending = .abandon → ∀ t, (adds entries).foldl (Table.Handles.exec o env)
          (some (start baseOutcome)) = some t → t.finishedBlobs = [])) := by
    intro hcloses
    obtain ⟨t, ht, howns⟩ := foldl_invariant (OwnsSome env)
      (fun s call hs hcloses => Table.Handles.exec_ownsSome o env hs hcloses) hstart hcloses
    obtain ⟨t', hexec, hfollows⟩ := ending_follows_iff o env howns ending
    rw [tableEnded, deletesAlong_closes o env hstart hcloses, foldl_append, ht]
    simp only [foldl_cons, foldl_nil, hexec, Option.map_some, Option.some.injEq,
      exists_eq_left', deletesAlong, append_nil, forall_eq']
    exact hfollows
  constructor
  · intro h
    have hcloses : Along (Table.Handles.exec o env) (Closes o env) (some (start baseOutcome))
        (adds entries) := by
      refine (Table.Handles.last_ne_none_iff o env hstart entries hlast).mp fun hnone => ?_
      obtain ⟨e, he, -⟩ := h
      rw [tableEnded, hnone] at he
      cases he
    exact ⟨hcloses, (hiff hcloses).mp h⟩
  · intro h
    exact (hiff h.1).mpr h.2

end

/-! ## Garbage collection jobs -/

variable {st : GcState}

section

def heldBy (builders : List (Option OutputFile)) : List UInt64 :=
  builders.filterMap fun b => b.map (·.number)

theorem heldBy_append (bs cs : List (Option OutputFile)) : heldBy (bs ++ cs) = heldBy bs ++ heldBy cs :=
  filterMap_append

theorem heldBy_singleton (b : Option OutputFile) : heldBy [b] = (b.map (·.number)).toList := by
  cases b <;> rfl

variable (o : GcOptions) (env : GcEnv)

/-- The handles that the run has got are those of its builders and of the current file. -/
def RunOwns (st : GcState) : Prop :=
  granted env.newFile st.newFiles = heldBy st.blobFileBuilders ++ (st.current.map (·.number)).toList

/-- A new output file, where there is no current one. -/
def openOutput (st : GcState) : Except GcState (GcState × OutputFile) :=
  match env.newFile st.newFiles with
  | .error e => .error { st with newFiles := st.newFiles + 1, status := some e }
  | .ok number =>
    .ok ({ st with newFiles := st.newFiles + 1, fileSize := 0 },
      ⟨number, .new o.builder { outcome := env.outcome number } kVersion2⟩)

def pushed (st : GcState) : GcState :=
  { st with blobFileBuilders := st.blobFileBuilders ++ [st.current], current := none }

theorem ensureOutput_cases (st : GcState) :
    (∃ out, st.current = some out ∧ ensureOutput o env st = .ok (st, out)) ∨
      (st.current = none ∧ ensureOutput o env st = openOutput o env st) ∨
      (o.blobFileTargetSize ≤ st.fileSize ∧ ensureOutput o env st = openOutput o env (pushed st)) := by
  unfold ensureOutput
  cases hcurrent : st.current with
  | some out =>
    cases hfull : decide (o.blobFileTargetSize ≤ st.fileSize) with
    | false => exact .inl ⟨out, rfl, rfl⟩
    | true =>
      rw [pushed, hcurrent]
      exact .inr (.inr ⟨of_decide_eq_true hfull, rfl⟩)
  | none =>
    cases hfull : decide (o.blobFileTargetSize ≤ st.fileSize) with
    | false => exact .inr (.inl ⟨rfl, rfl⟩)
    | true =>
      rw [pushed, hcurrent]
      exact .inr (.inr ⟨of_decide_eq_true hfull, rfl⟩)

theorem openOutput_owns (h : granted env.newFile st.newFiles = heldBy st.blobFileBuilders)
    (hcurrent : st.current = none) :
    (∀ st', openOutput o env st = .error st' → RunOwns env st') ∧
      ∀ st' out, openOutput o env st = .ok (st', out) →
        granted env.newFile st'.newFiles = heldBy st'.blobFileBuilders ++ [out.number] := by
  rw [openOutput]
  cases hnew : env.newFile st.newFiles with
  | error e =>
    refine ⟨fun st' herror => ?_, fun st' out hok => (by cases hok)⟩
    cases herror
    rw [RunOwns, granted_succ, hnew, h, hcurrent]
    rfl
  | ok number =>
    refine ⟨fun st' herror => (by cases herror), fun st' out hok => ?_⟩
    cases hok
    rw [granted_succ, hnew, h]
    rfl

theorem ensureOutput_owns (h : RunOwns env st) :
    (∀ st', ensureOutput o env st = .error st' → RunOwns env st') ∧
      ∀ st' out, ensureOutput o env st = .ok (st', out) →
        granted env.newFile st'.newFiles = heldBy st'.blobFileBuilders ++ [out.number] := by
  rw [RunOwns] at h
  rcases ensureOutput_cases o env st with ⟨out, hcurrent, heq⟩ | ⟨hcurrent, heq⟩ | ⟨-, heq⟩
  · rw [heq]
    refine ⟨fun st' herror => (by cases herror), fun st' out' hok => ?_⟩
    cases hok
    rw [hcurrent] at h
    exact h
  · rw [heq]
    rw [hcurrent, Option.map_none, Option.toList_none, append_nil] at h
    exact openOutput_owns o env h hcurrent
  · rw [heq]
    refine openOutput_owns o env ?_ rfl
    rw [pushed, heldBy_append, heldBy_singleton]
    exact h

def Flow.state : Flow → GcState
  | .go st => st
  | .stop st => st

theorem rewriteEntry_owns (h : RunOwns env st) (x : Entry) :
    RunOwns env (Flow.state (rewriteEntry o env st x)) := by
  obtain ⟨herror, hok⟩ := ensureOutput_owns o env h
  rw [rewriteEntry]
  split
  · exact h
  · split
    · rename_i st' hensure
      exact herror st' hensure
    · rename_i st' out hensure
      have hheld := hok st' out hensure
      rw [writeEntry]
      dsimp only
      split <;> exact hheld

theorem body_owns (h : RunOwns env st) (x : Entry) :
    RunOwns env (Flow.state (body o env st x)) := by
  -- what the tests change is not about files
  obtain ⟨key, fresh, ⟨-, ⟨e, hbody, -⟩ | hbody⟩ | ⟨-, hbody⟩⟩ := body_cases o env st x <;> rw [hbody]
  · exact h
  · exact h
  · exact rewriteEntry_owns o env (show RunOwns env (seen st x key fresh) from h) x

end

section

variable {compare : Bytes → Bytes → Ordering} (ienv : Env)
  (heap : PriorityQueue BlobFileIterator (KeyAfter compare)) (o : GcOptions) (env : GcEnv)

theorem loop_owns {fuel : Nat} {mi mi' : BlobFileMergeIterator} {st st' : GcState} (h : RunOwns env st)
    (hloop : loop ienv heap o env fuel mi st = some (mi', st')) : RunOwns env st' := by
  induction fuel generalizing mi st with
  | zero => cases hloop
  | succ fuel ih =>
    rw [loop] at hloop
    split at hloop
    · cases hloop
      exact h
    · rename_i x hitem
      have hbody := body_owns o env h x
      split at hloop
      · rename_i st₁ hstep
        cases hloop
        rw [hstep] at hbody
        exact hbody
      · rename_i st₁ hstep
        rw [hstep] at hbody
        exact ih hbody hloop

variable {storageFound : Bool} {inputs : List InputFile} {fuel : Nat} {st : GcState}

/-- A run that ends with OK is a loop that does, and its current file is pushed. -/
theorem doRunGC_ok (hrun : doRunGC ienv heap o env storageFound inputs fuel = some st)
    (hok : st.status = none) : ∃ mi₀ mi st₁, loop ienv heap o env fuel mi₀ {} = some (mi, st₁) ∧
      st₁.status = none ∧ st.newFiles = st₁.newFiles ∧ st.read = st₁.read ∧
      st.blobFileBuilders = st₁.blobFileBuilders ++ (st₁.current.map some).toList := by
  rw [doRunGC] at hrun
  split at hrun
  · cases hrun
    cases hok
  · split at hrun
    · cases hrun
    · rename_i mi st₁ hloop
      cases hrun
      rw [finishRun] at hok ⊢
      split at hok
      · rename_i hst
        refine ⟨_, mi, st₁, hloop, hst, ?_⟩
        cases hcurrent : st₁.current with
        | none => exact ⟨rfl, rfl, (append_nil _).symm⟩
        | some out => exact ⟨rfl, rfl, rfl⟩
      · cases hok
      · rename_i hst
        rw [hst] at hok
        cases hok

/-- Such a run has given all its handles to the builders it leaves. -/
theorem doRunGC_owns (hrun : doRunGC ienv heap o env storageFound inputs fuel = some st)
    (hok : st.status = none) : granted env.newFile st.newFiles = heldBy st.blobFileBuilders := by
  obtain ⟨mi₀, mi, st₁, hloop, -, hnew, -, hbuilders⟩ := doRunGC_ok ienv heap o env hrun hok
  have hstart : RunOwns env {} := rfl
  have h := loop_owns ienv heap o env hstart hloop
  rw [hnew, hbuilders, heldBy_append, h]
  cases st₁.current <;> rfl

end

/-- No null builder is dereferenced, and no handle that has been moved out. -/
def Installable (o : BuilderOptions) (builders : List (Option OutputFile)) : Prop :=
  ∃ outs : List OutputFile, builders = outs.map some ∧
    ((∀ out ∈ outs, (finishOutput o out).1 = none) ∨
      ∃ out rest, outs = out :: rest ∧ (finishOutput o out).1 ≠ none)

variable {builders : List (Option OutputFile)} (o : BuilderOptions)

theorem finishOutputs_null (h : none ∈ builders) {files : List OutputFile} {batches : List Rewrite}
    {s : Option Status} (hloop : finishOutputs o builders = some (files, batches, s)) :
    s ≠ none := by
  induction builders generalizing files batches s with
  | nil => exact absurd h not_mem_nil
  | cons b rest ih =>
    cases b with
    | none => cases hloop
    | some out =>
      have hrest : none ∈ rest := (mem_cons.mp h).resolve_left (Option.some_ne_none out).symm
      rw [finishOutputs] at hloop
      split at hloop
      · cases hloop
        exact Option.some_ne_none _
      · split at hloop
        · cases hloop
        · rename_i files' batches' s' hrest'
          cases hloop
          exact ih hrest hrest'

theorem install_null (io : Io) (h : none ∈ builders) :
    installOutputBlobFiles o io builders = none := by
  rw [installOutputBlobFiles]
  split
  · rfl
  · rename_i files batches hloop
    exact absurd rfl (finishOutputs_null o h hloop)
  · rfl
  · rw [if_neg]
    intro hall
    exact Bool.false_ne_true (all_eq_true.mp hall none h)

theorem eq_map_some (h : none ∉ builders) : ∃ outs : List OutputFile, builders = outs.map some := by
  induction builders with
  | nil => exact ⟨[], rfl⟩
  | cons b rest ih =>
    obtain ⟨outs, rfl⟩ := ih fun hmem => h (mem_cons_of_mem _ hmem)
    cases b with
    | none => exact absurd mem_cons_self h
    | some out => exact ⟨out :: outs, rfl⟩

/-- The installation passes on all the handles, or dereferences a null pointer. -/
theorem install_spec (io : Io) (builders : List (Option OutputFile)) :
    (Installable o builders → ∃ r, installOutputBlobFiles o io builders = some r ∧
      r.request.numbers = heldBy builders) ∧
    (¬ Installable o builders → installOutputBlobFiles o io builders = none) := by
  constructor
  · intro h
    obtain ⟨outs, rfl, hok | ⟨out, rest, rfl, hfirst⟩⟩ := h
    · obtain ⟨r, hinstall, -, hrequest⟩ := install_ok o io hok
      refine ⟨r, hinstall, ?_⟩
      rw [hrequest, heldBy, handles_some]
      rfl
    · obtain ⟨r, hinstall, -, hrequest⟩ := install_first o io hfirst rest
      refine ⟨r, hinstall, ?_⟩
      rw [hrequest, heldBy, handles_some]
      rfl
  · intro h
    by_cases hnull : none ∈ builders
    · exact install_null o io hnull
    · obtain ⟨outs, rfl⟩ := eq_map_some hnull
      rcases install_cases o outs with hok | ⟨out, rest, heq, hfirst⟩ | ⟨out, rest, rfl, hout, hlater⟩
      · exact absurd ⟨outs, rfl, .inl hok⟩ h
      · exact absurd ⟨outs, rfl, .inr ⟨out, rest, heq, hfirst⟩⟩ h
      · exact install_later o io hout hlater

/-- A software garbage collection job, with the run it has made. -/
structure Job where
  compare : Bytes → Bytes → Ordering
  ienv : Env
  heap : PriorityQueue BlobFileIterator (KeyAfter compare)
  o : GcOptions
  env : GcEnv
  storageFound : Bool
  inputs : List InputFile
  fuel : Nat
  result : GcState
  ran : doRunGC ienv heap o env storageFound inputs fuel = some result

/-- The job from `Run` to its end; `Finish` is called if `Run` returns OK. `none` if it has
dereferenced a null pointer. -/
def Job.ended (j : Job) (io : Io) : Option Ended :=
  match j.result.status with
  | some _ => some { obtained := granted j.env.newFile j.result.newFiles }
  | none =>
    (installOutputBlobFiles j.o.builder io j.result.blobFileBuilders).map fun r =>
      { obtained := granted j.env.newFile j.result.newFiles, releases := [r.request] }

/-- A job passes on every handle exactly if its run ends with OK and the installation gets
through, or the run has got no handle when it fails. -/
theorem Job.ended_follows_iff (j : Job) (io : Io) :
    (∃ e, j.ended io = some e ∧ e.Follows) ↔
      (j.result.status = none → Installable j.o.builder j.result.blobFileBuilders) ∧
        (j.result.status ≠ none → granted j.env.newFile j.result.newFiles = []) := by
  rw [Job.ended]
  cases hstatus : j.result.status with
  | some e =>
    simp only [Option.some.injEq, exists_eq_left', Ended.Follows, Ended.released, flatMap_nil,
      nil_perm, reduceCtorEq, false_implies, true_and, ne_eq, not_false_eq_true, true_implies]
  | none =>
    have hheld := doRunGC_owns j.ienv j.heap j.o j.env j.ran hstatus
    obtain ⟨hgood, hcrash⟩ := install_spec j.o.builder io j.result.blobFileBuilders
    refine ⟨fun h => ⟨fun _ => ?_, fun hne => absurd rfl hne⟩, fun h => ?_⟩
    · by_contra hnot
      obtain ⟨e, he, -⟩ := h
      rw [hcrash hnot] at he
      cases he
    · obtain ⟨r, hinstall, hnumbers⟩ := hgood (h.1 rfl)
      rw [hinstall]
      refine ⟨_, rfl, ?_⟩
      rw [Ended.Follows, Ended.released, flatMap_cons, flatMap_nil, append_nil,
        hnumbers, hheld]

/-! ## Builders and jobs together -/

inductive Run where
  | table (o : TableOptions) (env : TableEnv) (baseOutcome : Nat → Option Status)
      (entries : List (Bytes × Bytes)) (ending : Ending)
  | job (j : Job)

def Run.ended (io : Io) : Run → Option Ended
  | .table o env baseOutcome entries ending => tableEnded o env baseOutcome entries ending
  | .job j => j.ended io

/-- The builder's `Add` calls finish their blob files without a failure, and there is no
finished one when it is abandoned; the job's run ends with OK and its outputs can be
installed, or it has got no handle. -/
def Run.Keeps : Run → Prop
  | .table o env baseOutcome entries ending =>
    Along (Table.Handles.exec o env) (Closes o env) (some (start baseOutcome)) (adds entries) ∧
      (ending = .abandon → ∀ t, (adds entries).foldl (Table.Handles.exec o env)
        (some (start baseOutcome)) = some t → t.finishedBlobs = [])
  | .job j =>
    (j.result.status = none → Installable j.o.builder j.result.blobFileBuilders) ∧
      (j.result.status ≠ none → granted j.env.newFile j.result.newFiles = [])

theorem Run.ended_follows_iff (run : Run) (io : Io) :
    (∃ e, run.ended io = some e ∧ e.Follows) ↔ run.Keeps := by
  cases run with
  | table o env baseOutcome entries ending =>
    exact tableEnded_follows_iff o env baseOutcome entries ending
  | job j => exact j.ended_follows_iff io

/-- For any number of table builders and jobs whose requests are interleaved in any way:
every handle is passed on exactly once, and when all are gone no file is pending and none
on disk outside the version, exactly if each of them keeps its handles in this sense and
the requests it ends with succeed. -/
theorem handle_protocol_iff {ι : Type*} [DecidableEq ι] (run : ι → Run) (io : Io)
    (H : History fun i => ((run i).ended io).getD {}) :
    ((∀ i, ∃ e, (run i).ended io = some e ∧ e.Follows) ∧ NothingLeft (H.final io)) ↔
      ∀ i, (run i).Keeps ∧ ∀ e, (run i).ended io = some e → ∀ r ∈ e.releases, r.Succeeds io := by
  have hkeeps : (∀ i, ∃ e, (run i).ended io = some e ∧ e.Follows) ↔ ∀ i, (run i).Keeps :=
    forall_congr' fun i => (run i).ended_follows_iff io
  have hleft : (∀ i, ∃ e, (run i).ended io = some e ∧ e.Follows) →
      (NothingLeft (H.final io) ↔
        ∀ i, ∀ e, (run i).ended io = some e → ∀ r ∈ e.releases, r.Succeeds io) := by
    intro hfollows
    have hfollows' : ∀ i, (((run i).ended io).getD {}).Follows := by
      intro i
      obtain ⟨e, he, h⟩ := hfollows i
      rw [he]
      exact h
    rw [H.nothingLeft_iff hfollows']
    refine forall_congr' fun i => ?_
    obtain ⟨e, he, -⟩ := hfollows i
    rw [he]
    simp only [Option.getD_some, Option.some.injEq, forall_eq']
  rw [forall_and, ← hkeeps]
  exact and_congr_right hleft

/-- No call fails, and the value of the one entry fills blob file 1. -/
def oneFile (ending : Ending) : Run :=
  .table Table.Handles.separateOptions
    { Table.Handles.footerFails with newFile := fun _ => .ok 1, outcome := fun _ _ => none }
    (fun _ => none) [(appendInternalKey ⟨[], 1, kTypeValue⟩, [])] ending

/-- The keys count as equal, and the heap takes the first of its iterators. -/
def firstHeap : PriorityQueue BlobFileIterator (KeyAfter fun _ _ => .eq) where
  pop
    | [] => none
    | x :: xs => some (x, xs)
  pop_nil := rfl
  pop_cons x xs := ⟨x, xs, rfl, .refl _, fun _ _ h => Ordering.noConfusion h⟩

def smallTarget : GcOptions := { plainOptions true with blobFileTargetSize := 1 }

/-- A collection of the file of two records. -/
def collectTwo : Option GcState :=
  doRunGC plainEnv firstHeap smallTarget quiet true [plainFile twoRecordFile fun _ _ => none] 3

theorem collectTwo_ok : collectTwo.isSome ∧ (collectTwo.getD {}).status.isNone := by decide +kernel

theorem collectTwo_ran : collectTwo = some (collectTwo.getD {}) := by
  obtain ⟨st, hst⟩ := Option.isSome_iff_exists.mp collectTwo_ok.1
  rw [hst]
  rfl

def collectsTwo : Job where
  compare _ _ := .eq
  ienv := plainEnv
  heap := firstHeap
  o := smallTarget
  env := quiet
  storageFound := true
  inputs := [plainFile twoRecordFile fun _ _ => none]
  fuel := 3
  result := collectTwo.getD {}
  ran := collectTwo_ran

def builderAndJob (i : Bool) : Run := if i then .job collectsTwo else oneFile .finish

theorem builderAndJob_ended (i : Bool) :
    (builderAndJob i).ended quietIo = some (if i then ⟨[0], [.finish [0]]⟩ else ⟨[1], [.finish [1]]⟩) := by
  cases i <;> decide +kernel

def interleaved : History fun i => ((builderAndJob i).ended quietIo).getD {} where
  events := [(true, .newFile 0), (false, .newFile 1), (true, .release (.finish [0])),
    (false, .release (.finish [1]))]
  inOrder i := by rw [builderAndJob_ended]; cases i <;> rfl
  nodup i := by rw [builderAndJob_ended]; cases i <;> decide
  distinct i j n := by
    rw [builderAndJob_ended, builderAndJob_ended]
    cases i <;> cases j <;> simp +contextual

/-- A table builder and a job, each with one file, whose requests overlap. -/
theorem handle_protocol_builderAndJob :
    (∀ i, ∃ e, (builderAndJob i).ended quietIo = some e ∧ e.Follows) ∧
      NothingLeft (interleaved.final quietIo) := by
  refine (handle_protocol_iff builderAndJob quietIo interleaved).mpr fun i => ⟨?_, fun e he r hr n _ => ?_⟩
  · refine ((builderAndJob i).ended_follows_iff quietIo).mp ⟨_, builderAndJob_ended i, ?_⟩
    cases i <;> exact .refl _
  · rw [builderAndJob_ended] at he
    cases i <;> cases he <;> cases mem_singleton.mp hr <;> rfl

/-- The handle of a finished file is dropped by `Abandon`: the file stays pending. -/
theorem abandon_drops_handle :
    ∃ e, (oneFile .abandon).ended quietIo = some e ∧ ¬ e.Follows ∧
      ¬ NothingLeft (e.trace.foldl (exec quietIo) {}) := by
  refine ⟨{ obtained := [1] }, rfl, ?_, ?_⟩
  · intro h
    have hlength : 0 = 1 := h.length_eq
    omega
  · intro h
    exact h 1 (.inl (Finset.mem_insert_self 1 ∅))

end TitanGC.Collect.HandleProtocol
