import TitanGC.Collect.Run
import TitanGC.Storage.IntactFiles

/-!
# Input files that fail

What stands in an input file, and what its iterator makes of it when opening, a read or
a checksum fails. A failure ends the entries of the file; nothing but the true entries
is yielded. The checksum of the footer is not looked at, so a footer that is damaged
moves the end of the records without any failure.
-/

namespace TitanGC.Collect.FaultyInputs

open Lib.ByteCoding Lib.Draining List Format.Coding Format.BlobFile Storage.Iterator Run
open BlobFileIterator

/-- What reading the record at an offset gives, with its size. -/
abbrev RecordReader := Nat → Except Status (BlobRecord × Nat)

/-- Records that stand one after the other, from an offset up to the end. -/
inductive Laid (stored : RecordReader) (finish : Nat) : Nat → List (BlobRecord × Nat) → Prop
  | nil : Laid stored finish finish []
  | cons {offset size : Nat} {r : BlobRecord} {rs : List (BlobRecord × Nat)}
      (hread : stored offset = .ok (r, size)) (hsize : kRecordHeaderSize ≤ size)
      (hrest : Laid stored finish (offset + size) rs) : Laid stored finish offset ((r, size) :: rs)

/-- What a file contains, of any version and compression. -/
structure Contents where
  stored : RecordReader
  start : Nat
  finish : Nat
  records : List (BlobRecord × Nat)
  laid : Laid stored finish start records
  bound : finish < 2 ^ 63

def offsetsFrom : Nat → List (BlobRecord × Nat) → List Nat
  | _, [] => []
  | offset, (_, size) :: rs => offset :: offsetsFrom (offset + size) rs

def Contents.offsets (c : Contents) : List Nat := offsetsFrom c.start c.records

variable {rs : List (BlobRecord × Nat)}

theorem Laid.le {stored : RecordReader} {finish offset : Nat} (h : Laid stored finish offset rs) :
    offset + rs.length ≤ finish := by
  induction h with
  | nil => exact Nat.le_refl _
  | cons _ hsize _ ih =>
    rw [kRecordHeaderSize] at hsize
    rw [length_cons]
    omega

/-! ## One file -/

section

variable (env : Env)

/-- An iterator that is initialized on a file with these contents. A read of a record
gives what stands there or fails, and what follows the records is not taken for one. -/
structure ReadsOrFails (c : Contents) (it : BlobFileIterator) : Prop where
  headerSize : it.headerSize = c.start
  read : ∀ offset, it.readRecord env offset = c.stored offset ∨
    ∃ e, it.readRecord env offset = .error e
  beyond : c.finish < it.endOfBlobRecord → ∃ e, it.readRecord env c.finish = .error e

/-- An input file with its contents and whatever failures. -/
structure Input where
  file : InputFile
  contents : Contents
  faults : ∀ reader, file.opened = .ok reader → ∀ it,
    (file.iterator reader).doInit env = (true, it) → ReadsOrFails env contents it

variable {env}

def entryAt (env : Env) (f : InputFile) (offset index : Nat) (r : BlobRecord) (size : Nat) : Entry :=
  ⟨r, { fileNumber := f.fileNumber
        blobHandle := ⟨UInt64.ofNat offset, UInt64.ofNat size, UInt64.ofNat index⟩ },
    match f.bitmap.getBit index with
    | .ok bit => !bit
    | .error _ => env.uninitialized⟩

def entriesFrom (env : Env) (f : InputFile) : Nat → Nat → List (BlobRecord × Nat) → List Entry
  | _, _, [] => []
  | offset, index, (r, size) :: rs =>
    entryAt env f offset index r size :: entriesFrom env f (offset + size) (index + 1) rs

def Input.entries (i : Input env) : List Entry :=
  entriesFrom env i.file i.contents.start 0 i.contents.records

/-- The records up to the first that cannot be read or stands past the end that the
footer gives. -/
def readable (it : BlobFileIterator) (env : Env) :
    Nat → List (BlobRecord × Nat) → List (BlobRecord × Nat)
  | _, [] => []
  | offset, (r, size) :: rs =>
    if it.endOfBlobRecord ≤ offset then []
    else match it.readRecord env offset with
      | .error _ => []
      | .ok _ => (r, size) :: readable it env (offset + size) rs

/-- Whether the record at an offset is within the end and can be read. -/
def Reads (env : Env) (it : BlobFileIterator) (offset : Nat) : Prop :=
  offset < it.endOfBlobRecord ∧ ∃ x, it.readRecord env offset = .ok x

/-- The iterators that reading has brought about: only the position and the record
change. -/
structure Same (it it' : BlobFileIterator) : Prop where
  file : it'.file = it.file
  fileNumber : it'.fileNumber = it.fileNumber
  bitmap : it'.bitmap = it.bitmap
  fileEntries : it'.fileEntries = it.fileEntries
  endOfBlobRecord : it'.endOfBlobRecord = it.endOfBlobRecord
  uncompressionDict : it'.uncompressionDict = it.uncompressionDict

theorem Same.readRecord_eq {it it' : BlobFileIterator} (h : Same it it') (offset : Nat) :
    it'.readRecord env offset = it.readRecord env offset := by
  rw [readRecord, readRecord, h.file, h.uncompressionDict]

variable (env) in
theorem readable_initial (it : BlobFileIterator) (offset : Nat) (rs : List (BlobRecord × Nat)) :
    readable it env offset rs <+: rs := by
  induction rs generalizing offset with
  | nil => exact prefix_refl _
  | cons x rs ih =>
    obtain ⟨r, size⟩ := x
    rw [readable]
    split
    · exact nil_prefix
    · cases it.readRecord env offset with
      | error e => exact nil_prefix
      | ok y => exact (prefix_cons_inj _).mpr (ih (offset + size))

theorem readable_eq_iff (it : BlobFileIterator) (offset : Nat) (rs : List (BlobRecord × Nat)) :
    readable it env offset rs = rs ↔ ∀ o ∈ offsetsFrom offset rs, Reads env it o := by
  induction rs generalizing offset with
  | nil => simp [readable, offsetsFrom]
  | cons x rs ih =>
    obtain ⟨r, size⟩ := x
    rw [readable, offsetsFrom, forall_mem_cons, ← ih (offset + size)]
    by_cases hend : it.endOfBlobRecord ≤ offset
    · simp [hend, Reads, Nat.not_lt.mpr hend]
    · rw [if_neg hend]
      cases hread : it.readRecord env offset with
      | error e => simp [Reads, hread]
      | ok y => simp [Reads, hread, Nat.lt_of_not_le hend]

variable {c : Contents} {f : InputFile} {it₀ it : BlobFileIterator}

/-- From any record on, the iterator yields the records it can read. -/
theorem prefetchAndGet_yields (hfaults : ReadsOrFails env c it₀)
    (hnumber : it₀.fileNumber = f.fileNumber) (hbitmap : it₀.bitmap = f.bitmap)
    (hentries : it₀.fileEntries = 2 ^ 64 - 1) {offset index : Nat}
    (hlaid : Laid c.stored c.finish offset rs) (hsame : Same it₀ it)
    (hoffset : it.iterateOffset = offset) (hindex : it.iterateIndex = index)
    (hbound : index ≤ offset) :
    (BlobFileIterator.source env).Yields (it.prefetchAndGet env)
      (entriesFrom env f offset index (readable it₀ env offset rs)) := by
  induction hlaid generalizing it index with
  | nil =>
    rw [prefetchAndGet]
    split
    · exact .done rfl
    · rename_i hmore
      -- past the records a read fails
      obtain ⟨e, he⟩ := hfaults.beyond (by rw [← hsame.endOfBlobRecord, ← hoffset]; omega)
      refine .done ?_
      rw [getBlobRecord, hoffset, hsame.readRecord_eq, he]
      simp [BlobFileIterator.source, isValid]
  | @cons offset size r rs hread hsize hrest ih =>
    have hle := hrest.le
    have hfinish := c.bound
    rw [kRecordHeaderSize] at hsize
    rw [readable]
    by_cases hend : it₀.endOfBlobRecord ≤ offset
    · rw [if_pos hend, prefetchAndGet, if_pos (.inl (by
        rw [hsame.endOfBlobRecord, hoffset]; exact hend))]
      exact .done rfl
    · have hmore : ¬ (it.endOfBlobRecord ≤ it.iterateOffset ∨
          it.fileEntries ≤ it.iterateIndex) := by
        rw [hsame.endOfBlobRecord, hoffset, hsame.fileEntries, hentries, hindex]
        omega
      rw [if_neg hend, prefetchAndGet, if_neg hmore,
        getBlobRecord, hoffset, hsame.readRecord_eq]
      cases hfaults.read offset with
      | inr hfail =>
        obtain ⟨e, he⟩ := hfail
        rw [he]
        refine .done ?_
        simp [BlobFileIterator.source, isValid]
      | inl hsame' =>
        rw [hsame', hread]
        refine .more ?_ (ih ⟨hsame.file, hsame.fileNumber, hsame.bitmap, hsame.fileEntries,
          hsame.endOfBlobRecord, hsame.uncompressionDict⟩ rfl (congrArg (· + 1) hindex) (by omega))
        cases hbit : f.bitmap.getBit index <;>
          simp only [BlobFileIterator.source, isValid, Option.isNone_none,
            Bool.and_self, ↓reduceIte, BlobFileIterator.entry, getBlobIndex,
            validateByBitMap, entryAt, hsame.fileNumber, hsame.bitmap,
            hnumber, hbitmap, hindex, hbit]

variable (env) in
/-- `Init` sets the status when it fails, and keeps what identifies the file. -/
theorem doInit_frame (it : BlobFileIterator) :
    ((it.doInit env).1 = false → (it.doInit env).2.status.isSome = true) ∧
    (it.doInit env).2.file = it.file ∧ (it.doInit env).2.fileNumber = it.fileNumber ∧
    (it.doInit env).2.bitmap = it.bitmap ∧ (it.doInit env).2.fileEntries = it.fileEntries ∧
    (it.doInit env).2.iterateIndex = it.iterateIndex := by
  unfold doInit
  split
  · simp
  · split
    · simp
    · split
      · simp
      · unfold initRecords
        dsimp only
        split
        · split <;> simp
        · simp

def Input.yields (i : Input env) (reader : RandomAccessFile) : List Entry :=
  match (i.file.iterator reader).doInit env with
  | (false, _) => []
  | (true, it) =>
    entriesFrom env i.file i.contents.start 0
      (readable it env i.contents.start i.contents.records)

variable {reader : RandomAccessFile}

theorem Input.seekToFirst_yields (i : Input env) (hopen : i.file.opened = .ok reader) :
    (BlobFileIterator.source env).Yields ((i.file.iterator reader).seekToFirst env)
      (i.yields reader) := by
  have hframe := doInit_frame env (i.file.iterator reader)
  have hfresh : (i.file.iterator reader).init = false := rfl
  rw [BlobFileIterator.seekToFirst, hfresh, Input.yields]
  cases hinit : (i.file.iterator reader).doInit env with
  | mk ok it =>
    rw [hinit] at hframe
    obtain ⟨hstatus, hfile, hnumber, hbitmap, hentries, hindex⟩ := hframe
    cases ok with
    | false =>
      refine .done ?_
      have hfailed : it.status ≠ none := Option.isSome_iff_ne_none.mp (hstatus rfl)
      simp [BlobFileIterator.source, isValid, hfailed]
    | true =>
      have hfaults := i.faults reader hopen it hinit
      exact prefetchAndGet_yields hfaults hnumber hbitmap hentries i.contents.laid
        ⟨rfl, rfl, rfl, rfl, rfl, rfl⟩ hfaults.headerSize hindex (Nat.zero_le _)

def Input.ReadsCompletely (i : Input env) : Prop :=
  ∃ reader it, i.file.opened = .ok reader ∧ (i.file.iterator reader).doInit env = (true, it) ∧
    ∀ offset ∈ i.contents.offsets, Reads env it offset

/-- The file has a first record, and it can be read. -/
def Input.ReadsFirst (i : Input env) : Prop :=
  ∃ reader it, i.file.opened = .ok reader ∧ (i.file.iterator reader).doInit env = (true, it) ∧
    i.contents.records ≠ [] ∧ Reads env it i.contents.start

@[simp] theorem entriesFrom_length (f : InputFile) (offset index : Nat)
    (rs : List (BlobRecord × Nat)) : (entriesFrom env f offset index rs).length = rs.length := by
  induction rs generalizing offset index with
  | nil => rfl
  | cons x rs ih => rw [entriesFrom, length_cons, length_cons, ih]

variable (i : Input env)

include i

theorem Input.entries_length : i.entries.length = i.contents.records.length :=
  entriesFrom_length ..

theorem Input.yields_length_le (reader : RandomAccessFile) :
    (i.yields reader).length ≤ i.entries.length := by
  rw [Input.yields, Input.entries_length]
  split
  · exact Nat.zero_le _
  · rw [entriesFrom_length]
    exact (readable_initial _ _ _ _).length_le

/-- An opened input yields all its entries exactly if it is read completely. -/
theorem Input.yields_eq_iff (hopen : i.file.opened = .ok reader) :
    (i.yields reader).length = i.entries.length ↔
      i.contents.records = [] ∨ i.ReadsCompletely := by
  rw [Input.entries_length, Input.yields]
  cases hinit : (i.file.iterator reader).doInit env with
  | mk ok it =>
    have hcomplete : i.ReadsCompletely ↔ ok = true ∧
        ∀ offset ∈ i.contents.offsets, Reads env it offset := by
      constructor
      · rintro ⟨reader', it', hopen', hinit', hreads⟩
        rw [hopen] at hopen'
        cases hopen'
        rw [hinit] at hinit'
        cases hinit'
        exact ⟨rfl, hreads⟩
      · rintro ⟨rfl, hreads⟩
        exact ⟨reader, it, hopen, hinit, hreads⟩
    rw [hcomplete]
    cases ok with
    | false => simp [eq_comm]
    | true =>
      rw [entriesFrom_length, Contents.offsets, ← readable_eq_iff]
      have hprefix := readable_initial env it i.contents.start i.contents.records
      constructor
      · intro hlen
        exact .inr ⟨rfl, hprefix.eq_of_length hlen⟩
      · rintro (hnil | ⟨-, heq⟩)
        · rw [hnil, readable]
        · rw [heq]

theorem Input.entries_of_length_eq (hlen : (i.yields reader).length = i.entries.length) :
    i.yields reader = i.entries := by
  rw [Input.entries_length] at hlen
  rw [Input.yields] at hlen ⊢
  cases hinit : (i.file.iterator reader).doInit env with
  | mk ok it =>
    rw [hinit] at hlen
    cases ok with
    | false => rw [Input.entries, length_eq_zero_iff.mp hlen.symm, entriesFrom]
    | true =>
      rw [entriesFrom_length] at hlen
      rw [Input.entries]
      dsimp only
      rw [(readable_initial env it i.contents.start i.contents.records).eq_of_length hlen]

/-- An opened input yields something exactly if its first record can be read. -/
theorem Input.yields_ne_nil_iff (hopen : i.file.opened = .ok reader) :
    i.yields reader ≠ [] ↔ i.ReadsFirst := by
  rw [Input.yields]
  constructor
  · intro hne
    cases hinit : (i.file.iterator reader).doInit env with
    | mk ok it =>
      rw [hinit] at hne
      cases ok with
      | false => exact absurd rfl hne
      | true =>
        cases hrecords : i.contents.records with
        | nil => rw [hrecords] at hne; exact absurd rfl hne
        | cons x rs =>
          refine ⟨reader, it, hopen, hinit, by rw [hrecords]; exact cons_ne_nil _ _, ?_⟩
          rw [hrecords] at hne
          dsimp only at hne
          rw [readable] at hne
          by_cases hend : it.endOfBlobRecord ≤ i.contents.start
          · rw [if_pos hend] at hne
            exact absurd rfl hne
          · rw [if_neg hend] at hne
            cases hread : it.readRecord env i.contents.start with
            | error e => rw [hread] at hne; exact absurd rfl hne
            | ok y => exact ⟨Nat.lt_of_not_le hend, y, hread⟩
  · rintro ⟨reader', it, hopen', hinit, hrecords, hend, y, hread⟩
    rw [hopen] at hopen'
    cases hopen'
    rw [hinit]
    cases hcons : i.contents.records with
    | nil => exact absurd hcons hrecords
    | cons x rs =>
      dsimp only
      rw [readable, if_neg (Nat.not_le.mpr hend), hread]
      exact cons_ne_nil _ _

end

/-! ## The inputs of a run -/

variable (inputs : List (Input env))

section

variable {env : Env}

def opened : List (Input env) → List (Input env × RandomAccessFile)
  | [] => []
  | i :: is =>
    match i.file.opened with
    | .error _ => []
    | .ok reader => (i, reader) :: opened is

def unopened : List (Input env) → List (Input env)
  | [] => []
  | i :: is =>
    match i.file.opened with
    | .error _ => i :: is
    | .ok _ => unopened is

theorem opened_append_unopened : (opened inputs).map Prod.fst ++ unopened inputs = inputs := by
  induction inputs with
  | nil => rfl
  | cons i is ih =>
    rw [opened, unopened]
    cases i.file.opened with
    | error e => rfl
    | ok reader => rw [map_cons, cons_append, ih]

theorem opened_of_mem {inputs : List (Input env)} {p : Input env × RandomAccessFile}
    (hp : p ∈ opened inputs) : p.1.file.opened = .ok p.2 := by
  induction inputs with
  | nil => simp [opened] at hp
  | cons i is ih =>
    rw [opened] at hp
    cases hopen : i.file.opened with
    | error e => rw [hopen] at hp; exact absurd hp not_mem_nil
    | ok reader =>
      rw [hopen] at hp
      cases mem_cons.mp hp with
      | inl heq => rw [heq]; exact hopen
      | inr hmem => exact ih hmem

theorem openFiles_eq :
    (openFiles (inputs.map Input.file)).1 = (opened inputs).map (fun p => (p.1.file, p.2)) ∧
    ((openFiles (inputs.map Input.file)).2 = none ↔ unopened inputs = []) := by
  induction inputs with
  | nil => exact ⟨rfl, by simp [openFiles, unopened]⟩
  | cons i is ih =>
    rw [map_cons, openFiles, opened, unopened]
    cases i.file.opened with
    | error e => simp
    | ok reader => exact ⟨congrArg (List.cons (i.file, reader)) ih.1, ih.2⟩

def yielded (inputs : List (Input env)) : List Entry :=
  (opened inputs).flatMap fun p => p.1.yields p.2

/-- The merge over the opened inputs. -/
theorem merge_yields {compare : Bytes → Bytes → Ordering}
    (heap : PriorityQueue BlobFileIterator (KeyAfter compare)) (inputs : List (Input env)) :
    ∃ l, l.Perm (yielded inputs) ∧
      (BlobFileMergeIterator.source env heap).Yields (BlobFileMergeIterator.seekToFirst env heap
        { blobFileIterators := (opened inputs).map fun p => p.1.file.iterator p.2 }) l ∧
      ((BlobFileMergeIterator.seekToFirst env heap
        { blobFileIterators := (opened inputs).map fun p => p.1.file.iterator p.2 }).status =
        if l = [] then some ⟨.aborted, "No iterator is valid"⟩ else none) := by
  have h : List.Forall₂ (fun it => (BlobFileIterator.source env).Yields (it.seekToFirst env))
      ((opened inputs).map fun p => p.1.file.iterator p.2)
      ((opened inputs).map fun p => p.1.yields p.2) := by
    rw [forall₂_map_left_iff, forall₂_map_right_iff, forall₂_same]
    intro p hp
    exact p.1.seekToFirst_yields (opened_of_mem hp)
  obtain ⟨l, hmerged, hyields, hstatus⟩ := BlobFileMergeIterator.seekToFirst_yields env heap h
  exact ⟨l, by rw [yielded, flatMap_def]; exact hmerged.perm, hyields, hstatus⟩

end

/-! ## Files that the builder wrote -/

section

open Storage.Builder Storage.IntactFiles

def failing (fault : Nat → Nat → Option Status) (file : RandomAccessFile) : RandomAccessFile :=
  fun offset n => match fault offset n with
    | some e => .error e
    | none => file offset n

variable (env : Env) {fault : Nat → Nat → Option Status}

/-- Reading a record from such a file gives what the file has, or fails. -/
theorem readRecord_failing (it : BlobFileIterator) (offset : Nat) :
    readRecord env { it with file := failing fault it.file } offset =
        it.readRecord env offset ∨
      ∃ e, readRecord env { it with file := failing fault it.file } offset =
        .error e := by
  simp only [readRecord, failing]
  cases fault offset kRecordHeaderSize with
  | some e => exact .inr ⟨e, rfl⟩
  | none =>
    dsimp only
    cases it.file offset kRecordHeaderSize with
    | error e => exact .inl rfl
    | ok header =>
      dsimp only
      cases decodeHeader header with
      | error e => exact .inl rfl
      | ok decoded =>
        obtain ⟨decoder, rest⟩ := decoded
        dsimp only
        cases fault (offset + kRecordHeaderSize) decoder.recordSize.toNat with
        | some e => exact .inr ⟨e, rfl⟩
        | none => exact .inl rfl

/-- It is read where neither of its two reads fails. -/
theorem readRecord_failing_of_none (it : BlobFileIterator) {offset : Nat}
    (hheader : fault offset kRecordHeaderSize = none)
    (hbody : ∀ n, fault (offset + kRecordHeaderSize) n = none) :
    readRecord env { it with file := failing fault it.file } offset =
      it.readRecord env offset := by
  simp only [readRecord, failing, hheader, hbody]

theorem laid_plain {f : GcFile} (hf : Fits f.file) (before after : List BlobRecord)
    (hsplit : f.file.records = before ++ after) :
    Laid ((openFile f).readRecord env) (f.file.header.size + (entries f.file.records).length)
      (f.file.header.size + (entries before).length)
      (after.map fun r => (r, (plainEntry r).length)) := by
  induction after generalizing before with
  | nil =>
    rw [hsplit, append_nil]
    exact .nil
  | cons r after ih =>
    refine .cons (readRecord_entry env hf rfl hsplit)
      (by rw [plainEntry_length]; exact Nat.le_add_right _ _) ?_
    have hrest := ih (before ++ [r]) (by rw [hsplit, append_assoc]; rfl)
    rwa [entries_append, entries_cons, entries_nil, append_nil, length_append,
      ← Nat.add_assoc] at hrest

def plainContents (f : GcFile) (hf : Fits f.file) : Contents where
  stored := (openFile f).readRecord env
  start := f.file.header.size
  finish := f.file.header.size + (entries f.file.records).length
  records := f.file.records.map fun r => (r, (plainEntry r).length)
  laid := laid_plain env hf [] f.file.records rfl
  bound := by
    have hsize := hf.size
    rw [PlainFile.image_length] at hsize
    omega

/-- If `Init` succeeds on such a file it finds the records where they are. -/
theorem doInit_failing {f : GcFile} (hf : Fits f.file) {it₀ it : BlobFileIterator}
    (hfile : it₀.file = failing fault (.ofBytes f.file.image))
    (hsize : it₀.fileSize = f.file.image.length) (hinit : it₀.doInit env = (true, it)) :
    it = { it₀ with
      status := none
      endOfBlobRecord := f.file.header.size + (entries f.file.records).length
      headerSize := f.file.header.size
      init := true } := by
  have hsub : sub64 it₀.fileSize kBlobFooterSize =
      f.file.header.size + (entries f.file.records).length := by
    have hbound := hf.size
    have hlen := f.file.image_length
    rw [hsize, sub64_of_le (by omega) (by omega), hlen]
    omega
  cases hfault : fault 0 12 with
  | some e =>
    simp [doInit, hfile, failing, hfault] at hinit
  | none =>
    have hheader : it₀.file 0 12 = .ok ((f.file.image.drop 0).take 12) := by
      rw [hfile, failing, hfault]
      rfl
    cases hfault' : fault (f.file.header.size + (entries f.file.records).length)
        kBlobFooterSize with
    | some e =>
      have hfooter : it₀.file (sub64 it₀.fileSize kBlobFooterSize) kBlobFooterSize =
          .error e := by
        rw [hsub, hfile, failing, hfault']
      simp only [doInit, hheader, decodeInto_header, hfooter] at hinit
      cases hinit
    | none =>
      have hfooter : it₀.file (f.file.header.size + (entries f.file.records).length)
          kBlobFooterSize = .ok ({} : BlobFileFooter).encodeTo := by
        rw [hfile, failing, hfault']
        exact ofBytes_footer f.file
      rw [doInit_of_reads env hf hheader hsize hfooter] at hinit
      exact (congrArg Prod.snd hinit).symm

/-- What opening a file that the builder wrote gives, with failures of its reads. -/
def plainFile (f : GcFile) (fault : Nat → Nat → Option Status) : InputFile where
  fileNumber := f.fileNumber
  fileSize := f.file.image.length
  opened := .ok (failing fault (.ofBytes f.file.image))
  present := true
  bitmap := f.bitmap

def plainInput (f : GcFile) (hf : Fits f.file) (fault : Nat → Nat → Option Status) : Input env where
  file := plainFile f fault
  contents := plainContents env f hf
  faults := by
    intro reader hopen it hinit
    cases hopen
    have hit := doInit_failing env hf rfl rfl hinit
    have hsame : Same { openFile f with
        file := failing fault (openFile f).file
        endOfBlobRecord := f.file.header.size + (entries f.file.records).length } it := by
      rw [hit]
      exact ⟨rfl, rfl, rfl, rfl, rfl, rfl⟩
    refine ⟨by rw [hit]; rfl, fun offset => ?_, fun hlt => ?_⟩
    · rw [hsame.readRecord_eq]
      exact readRecord_failing env (openFile f) offset
    · rw [hit] at hlt
      exact absurd hlt (Nat.lt_irrefl _)

end

end TitanGC.Collect.FaultyInputs
