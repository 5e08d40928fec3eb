import TitanGC.Collect.Run
import TitanGC.Storage.BuilderErrors
import TitanGC.Storage.FileManager

/-!
# Installing the outputs of a collection

`BlobGCJob::InstallOutputBlobFiles`. The status of `Finish` is passed on to
`BatchWriteNewIndices`, which overwrites it for every context it is given. When a later
builder fails, the handles of the earlier ones have been moved out already.
-/

namespace TitanGC.Collect.Install

open Format.Coding Format.BlobFile List Format.InternalKey Storage.Writer Storage.FileManager
open Storage.BuilderErrors (dictionaryOptions)
open Run

/-- The status that is looked at after a builder's `Finish`, and the write-backs of the
contexts it has handed out. -/
def finishOutput (o : BuilderOptions) (out : OutputFile) : Option Status × List Rewrite :=
  match (out.builder.finish o).2 with
  | [] => ((out.builder.finish o).1.status, [])
  | ctx :: ctxs => batchWriteNewIndices (ctx :: ctxs)

/-- The loop over the builders: the files it has moved out, the write-backs, and the status
it ends with. `none` is a null builder that is dereferenced. -/
def finishOutputs (o : BuilderOptions) :
    List (Option OutputFile) → Option (List OutputFile × List Rewrite × Option Status)
  | [] => some ([], [], none)
  | none :: _ => none
  | some out :: rest =>
    match finishOutput o out with
    | (some e, batches) => some ([], batches, some e)
    | (none, batches) =>
      match finishOutputs o rest with
      | none => none
      | some (files, batches', s) =>
        some (⟨out.number, (out.builder.finish o).1⟩ :: files, batches ++ batches', s)

/-- How an installation ends: its status, what the job writes back, the outputs it adds,
and the request it has made to the file manager. -/
structure Installed where
  status : Option Status
  rewriteBatches : List Rewrite
  outputs : List OutputFile
  request : Release

def numbers (outs : List OutputFile) : List UInt64 := outs.map (·.number)

/-- `none` is a null pointer that is dereferenced: a null builder, or in the loop that
collects the handles one that has been moved out. -/
def installOutputBlobFiles (o : BuilderOptions) (io : Io)
    (builders : List (Option OutputFile)) : Option Installed :=
  match finishOutputs o builders with
  | none => none
  | some (files, rewriteBatches, none) =>
    let status := finishStatus io (numbers files)
    some { status, rewriteBatches, outputs := if status.isNone then files else [],
           request := .finish (numbers files) }
  | some (_ :: _, _, some _) => none
  | some ([], rewriteBatches, some e) =>
    if builders.all Option.isSome then
      some { status := some e, rewriteBatches, outputs := [],
             request := .delete (builders.filterMap fun b => b.map (·.number)) }
    else none

/-! ## The loop over the builders -/

variable (o : BuilderOptions)

def closed (out : OutputFile) : OutputFile := ⟨out.number, (out.builder.finish o).1⟩

theorem finishOutputs_ok {outs : List OutputFile} (h : ∀ out ∈ outs, (finishOutput o out).1 = none) :
    ∃ batches, finishOutputs o (outs.map some) = some (outs.map (closed o), batches, none) := by
  induction outs with
  | nil => exact ⟨[], rfl⟩
  | cons out rest ih =>
    obtain ⟨hout, hrest⟩ := forall_mem_cons.mp h
    obtain ⟨batches, hbatches⟩ := ih hrest
    rw [map_cons, finishOutputs]
    generalize hfinish : finishOutput o out = result at hout
    obtain ⟨s, batches'⟩ := result
    subst hout
    rw [hbatches]
    exact ⟨batches' ++ batches, rfl⟩

variable {out : OutputFile}

theorem finishOutputs_first (h : (finishOutput o out).1 ≠ none) (rest : List (Option OutputFile)) :
    ∃ batches e, finishOutputs o (some out :: rest) = some ([], batches, some e) := by
  rw [finishOutputs]
  generalize finishOutput o out = result at h
  obtain ⟨s, batches⟩ := result
  cases s with
  | none => exact absurd rfl h
  | some e => exact ⟨batches, e, rfl⟩

variable {rest : List OutputFile}

/-- When a builder after the first fails, the handle of the first is gone. -/
theorem finishOutputs_later (hout : (finishOutput o out).1 = none)
    (h : ∃ out ∈ rest, (finishOutput o out).1 ≠ none) :
    ∃ file files batches e,
      finishOutputs o ((out :: rest).map some) = some (file :: files, batches, some e) := by
  induction rest generalizing out with
  | nil =>
    obtain ⟨x, hx, -⟩ := h
    exact absurd hx not_mem_nil
  | cons out' rest ih =>
    have hnext : ∃ files batches e,
        finishOutputs o ((out' :: rest).map some) = some (files, batches, some e) := by
      by_cases hout' : (finishOutput o out').1 = none
      · have h' : ∃ out ∈ rest, (finishOutput o out).1 ≠ none := by
          obtain ⟨x, hx, hne⟩ := h
          rcases mem_cons.mp hx with rfl | hx
          · exact absurd hout' hne
          · exact ⟨x, hx, hne⟩
        obtain ⟨file, files, batches, e, heq⟩ := ih hout' h'
        exact ⟨file :: files, batches, e, heq⟩
      · obtain ⟨batches, e, heq⟩ := finishOutputs_first o hout' (rest.map some)
        exact ⟨[], batches, e, heq⟩
    obtain ⟨files, batches, e, heq⟩ := hnext
    rw [map_cons, finishOutputs]
    generalize hfinish : finishOutput o out = result at hout
    obtain ⟨s, batches'⟩ := result
    subst hout
    rw [heq]
    exact ⟨closed o out, files, batches' ++ batches, e, rfl⟩

/-! ## The result -/

variable (io : Io) (db : DbFiles) (outs : List OutputFile)

theorem numbers_closed : numbers (outs.map (closed o)) = numbers outs := by
  rw [numbers, numbers, map_map]
  rfl

theorem handles_some : (outs.map some).filterMap (fun b => b.map (·.number)) = numbers outs := by
  rw [filterMap_map, numbers]
  exact congrFun filterMap_eq_map outs

/-- With no failure to be seen, all the files are passed to `BatchFinishFiles`. -/
theorem install_ok {outs : List OutputFile} (h : ∀ out ∈ outs, (finishOutput o out).1 = none) :
    ∃ r, installOutputBlobFiles o io (outs.map some) = some r ∧
      r.status = finishStatus io (numbers outs) ∧ r.request = .finish (numbers outs) := by
  obtain ⟨batches, hloop⟩ := finishOutputs_ok o h
  rw [installOutputBlobFiles, hloop, ← numbers_closed o outs]
  exact ⟨_, rfl, rfl, rfl⟩

/-- With a failure of the first builder, all of them are deleted. -/
theorem install_first (h : (finishOutput o out).1 ≠ none) (rest : List OutputFile) :
    ∃ r, installOutputBlobFiles o io ((out :: rest).map some) = some r ∧ r.status ≠ none ∧
      r.request = .delete (numbers (out :: rest)) := by
  obtain ⟨batches, e, hloop⟩ := finishOutputs_first o h (rest.map some)
  have hall : ((out :: rest).map some).all Option.isSome = true := by
    rw [all_map]
    exact all_eq_true.mpr fun _ _ => rfl
  rw [installOutputBlobFiles, map_cons, hloop, ← map_cons]
  dsimp only
  rw [if_pos hall, handles_some]
  exact ⟨_, rfl, Option.some_ne_none e, rfl⟩

theorem install_later (hout : (finishOutput o out).1 = none)
    (h : ∃ out ∈ rest, (finishOutput o out).1 ≠ none) :
    installOutputBlobFiles o io ((out :: rest).map some) = none := by
  obtain ⟨file, files, batches, e, hloop⟩ := finishOutputs_later o hout h
  rw [installOutputBlobFiles, hloop]

/-- Every outcome of an installation. -/
theorem install_cases :
    (∀ out ∈ outs, (finishOutput o out).1 = none) ∨
      (∃ out rest, outs = out :: rest ∧ (finishOutput o out).1 ≠ none) ∨
      ∃ out rest, outs = out :: rest ∧ (finishOutput o out).1 = none ∧
        ∃ out ∈ rest, (finishOutput o out).1 ≠ none := by
  cases outs with
  | nil => exact .inl (forall_mem_nil _)
  | cons out rest =>
    by_cases hout : (finishOutput o out).1 = none
    · by_cases hrest : ∀ out ∈ rest, (finishOutput o out).1 = none
      · exact .inl (forall_mem_cons.mpr ⟨hout, hrest⟩)
      · obtain ⟨x, hx⟩ := Classical.not_forall.mp hrest
        exact .inr (.inr ⟨out, rest, rfl, hout, x, Classical.not_imp.mp hx⟩)
    · exact .inr (.inl ⟨out, rest, rfl, hout⟩)

/-- It returns, with OK if every `Finish` and `BatchFinishFiles` were OK, or with an error
and without having registered a file. -/
def Sound (outs : List OutputFile) : Prop :=
  ∃ r, installOutputBlobFiles o io (outs.map some) = some r ∧
    ((r.status = none ∧ (∀ out ∈ outs, (out.builder.finish o).1.status = none) ∧
        finishStatus io (numbers outs) = none) ∨
      (r.status ≠ none ∧ (r.request.apply io db).registered = db.registered))

/-- The installation is sound exactly if no failure is seen after a `Finish` and none has
been masked, or `BatchFinishFiles` fails; or if the failure of the first builder is seen. -/
theorem install_sound_iff (outs : List OutputFile) :
    Sound o io db outs ↔
      ((∀ out ∈ outs, (finishOutput o out).1 = none) ∧
        ((∀ out ∈ outs, (out.builder.finish o).1.status = none) ∨
          finishStatus io (numbers outs) ≠ none)) ∨
      ∃ out rest, outs = out :: rest ∧ (finishOutput o out).1 ≠ none := by
  rcases install_cases o outs with hok | ⟨out, rest, rfl, hfirst⟩ | ⟨out, rest, rfl, hout, hlater⟩
  · obtain ⟨r, hinstall, hstatus, hrequest⟩ := install_ok o io hok
    constructor
    · intro h
      obtain ⟨r', hinstall', hsound⟩ := h
      rw [hinstall] at hinstall'
      cases hinstall'
      rw [hstatus] at hsound
      rcases hsound with ⟨-, hfinish, -⟩ | ⟨hfailed, -⟩
      · exact .inl ⟨hok, .inl hfinish⟩
      · exact .inl ⟨hok, .inr hfailed⟩
    · intro h
      refine ⟨r, hinstall, ?_⟩
      rw [hstatus]
      by_cases hbatch : finishStatus io (numbers outs) = none
      · rcases h with ⟨-, hfinish | hfailed⟩ | ⟨out, rest, rfl, hfirst⟩
        · exact .inl ⟨hbatch, hfinish, hbatch⟩
        · exact absurd hbatch hfailed
        · exact absurd (hok out mem_cons_self) hfirst
      · refine .inr ⟨hbatch, ?_⟩
        rw [hrequest, Release.apply, batchFinishFiles_registered, if_neg]
        rw [Option.isNone_iff_eq_none]
        exact hbatch
  · obtain ⟨r, hinstall, hstatus, hrequest⟩ := install_first o io hfirst rest
    refine ⟨fun _ => .inr ⟨out, rest, rfl, hfirst⟩, fun _ => ⟨r, hinstall, .inr ⟨hstatus, ?_⟩⟩⟩
    rw [hrequest]
    rfl
  · have hcrash := install_later o io hout hlater
    constructor
    · intro h
      obtain ⟨r, hinstall, -⟩ := h
      rw [hcrash] at hinstall
      cases hinstall
    · intro h
      obtain ⟨x, hx, hne⟩ := hlater
      rcases h with ⟨hok, -⟩ | ⟨out', rest', heq, hfirst⟩
      · exact absurd (hok x (mem_cons_of_mem _ hx)) hne
      · cases heq
        exact absurd hout hfirst

def quietIo : Io := ⟨fun _ => none, fun _ => none, fun _ => none, fun _ => none, fun _ => none⟩

/-- The output of one record with a dictionary, of whose appends the footer's fails. -/
def bufferedOutput : OutputFile where
  number := 1
  builder := (BlobFileBuilder.add dictionaryOptions
    (.new dictionaryOptions
      { outcome := fun i => if i = 7 then some ⟨.ioError, ""⟩ else none } kVersion2)
    ⟨[], []⟩ { key := appendInternalKey ⟨[], 1, kTypeValue⟩ }).1

def directOptions : BuilderOptions := { dictionaryOptions with maxDictBytes := 0 }

/-- An output without a dictionary, of whose appends one may fail. -/
def directOutput (number : UInt64) (fails : Nat) : OutputFile where
  number := number
  builder := .new directOptions
    { outcome := fun i => if i = fails then some ⟨.ioError, ""⟩ else none } kVersion2

/-- A file without a footer is installed; and where the second of two builders fails, a null
handle is dereferenced. -/
theorem failed_finish_not_refused :
    ¬ Sound dictionaryOptions quietIo {} [bufferedOutput] ∧
      ¬ Sound directOptions quietIo {} [directOutput 1 9, directOutput 2 1] := by
  constructor
  · intro h
    obtain ⟨r, hinstall, hsound⟩ := h
    have hok : ∀ out ∈ [bufferedOutput], (finishOutput dictionaryOptions out).1 = none := by
      intro out hout
      rw [mem_singleton.mp hout]
      rfl
    obtain ⟨r', hinstall', hstatus, -⟩ := install_ok dictionaryOptions quietIo hok
    rw [hinstall] at hinstall'
    cases hinstall'
    rw [hstatus] at hsound
    rcases hsound with ⟨-, hfinish, -⟩ | ⟨hfailed, -⟩
    · exact Option.some_ne_none _ (hfinish bufferedOutput mem_cons_self)
    · exact hfailed rfl
  · intro h
    obtain ⟨r, hinstall, -⟩ := h
    have hlater : ∃ out ∈ [directOutput 2 1], (finishOutput directOptions out).1 ≠ none :=
      ⟨_, mem_singleton_self _, Option.some_ne_none _⟩
    have hcrash : installOutputBlobFiles directOptions quietIo
        ([directOutput 1 9, directOutput 2 1].map some) = none := install_later _ quietIo rfl hlater
    rw [hcrash] at hinstall
    cases hinstall

end TitanGC.Collect.Install
