import TitanGC.Kernel.FileFormat
import TitanGC.Storage.BlobFileBuilder

/-!
# The kernel

`gc_kernel.cc`: one pass over the input files and their bitmaps, which copies every
entry whose bit is clear to the output file and tells of it in the output keys. The
whole pass is one rewrite of the surviving records, in order.
-/

namespace TitanGC.Kernel.GcKernel

open Lib.ByteCoding Lib.Memory List Format.BlobFile Storage.Builder FileFormat

structure KernelInput where
  dataLength : Nat
  bitmapLength : Nat
  entries : Nat

structure Progress where
  data : Mem
  key : Mem
  dataOffset : Nat
  keyOffset : Nat
  rewriteKeyNum : Nat

/-- The loop over the entries of a file, with `n` entries to go. -/
def entryLoop (crc : Checksum) (datas bitmaps : Mem) (inputData inputBitmap i : Nat) :
    Nat → Nat → Nat → UInt32 → UInt32 → Progress → Option Progress
  | 0, _, _, _, _, p => some p
  | n + 1, j, curOffset, keySize, valueSize, p =>
    let valid := checkValid j bitmaps inputBitmap
    match getKV datas inputData curOffset valid keySize valueSize with
    | none => none
    | some kv =>
      let p := if valid then
          let (key, keyOffset) := putOutputKey p.key kv.key p.keyOffset p.dataOffset i curOffset
            (kv.curOffset - curOffset)
          let (data, dataOffset) := putOutputData crc p.data kv.key kv.value p.dataOffset
          ⟨data, key, dataOffset, keyOffset, p.rewriteKeyNum + 1⟩
        else p
      entryLoop crc datas bitmaps inputData inputBitmap i n (j + 1) kv.curOffset kv.keySize
        kv.valueSize p

/-- The loop over the files; what `DecodeHeader` returns is not looked at. -/
def fileLoop (crc : Checksum) (datas bitmaps : Mem) :
    List KernelInput → Nat → Nat → Nat → Progress → Option Progress
  | [], _, _, _, p => some p
  | f :: fs, i, inputData, inputBitmap, p =>
    let (_, curOffset) := decodeHeader datas inputData 0
    match entryLoop crc datas bitmaps inputData inputBitmap i f.entries 0 curOffset 0 0 p with
    | none => none
    | some p =>
      fileLoop crc datas bitmaps fs (i + 1) (inputData + f.dataLength)
        (inputBitmap + f.bitmapLength) p

/-- The output buffers, and `output_meta`: the number of records, then the sizes. -/
structure KernelOutput where
  data : Mem
  key : Mem
  rewriteKeyNum : Nat
  dataSize : Nat
  keySize : Nat

def gcKernel (crc : Checksum) (inputs : List KernelInput) (datas bitmaps data key : Mem) :
    Option KernelOutput :=
  let (data, dataOffset) := encodeHeader data 0
  match fileLoop crc datas bitmaps inputs 0 0 0 ⟨data, key, dataOffset, 0, 0⟩ with
  | none => none
  | some p =>
    let (data, dataOffset) := encodeFooter crc p.data p.dataOffset
    some ⟨data, p.key, p.rewriteKeyNum, dataOffset, p.keyOffset⟩

/-! ## What is read -/

/-- The entries of a file that the loop keeps, with their places; `n` are to go. -/
def readEntries (datas bitmaps : Mem) (inputData inputBitmap i : Nat) :
    Nat → Nat → Nat → UInt32 → UInt32 → Option (List Survivor)
  | 0, _, _, _, _ => some []
  | n + 1, j, curOffset, keySize, valueSize =>
    let valid := checkValid j bitmaps inputBitmap
    match getKV datas inputData curOffset valid keySize valueSize with
    | none => none
    | some kv =>
      let x : Survivor := ⟨i, ⟨kv.key, kv.value⟩, ⟨UInt64.ofNat curOffset,
        UInt64.ofNat (kv.curOffset - curOffset), UInt64.ofNat j⟩⟩
      (readEntries datas bitmaps inputData inputBitmap i n (j + 1) kv.curOffset kv.keySize
        kv.valueSize).map ((if valid then [x] else []) ++ ·)

def readFiles (datas bitmaps : Mem) : List KernelInput → Nat → Nat → Nat → Option (List Survivor)
  | [], _, _, _ => some []
  | f :: fs, i, inputData, inputBitmap =>
    (readEntries datas bitmaps inputData inputBitmap i f.entries 0 (decodeHeader datas inputData 0).2
      0 0).bind fun xs => (readFiles datas bitmaps fs (i + 1) (inputData + f.dataLength)
        (inputBitmap + f.bitmapLength)).map (xs ++ ·)

def AllStaged (xs : List Survivor) : Prop := ∀ x ∈ xs, Staged x.record

variable {crc : Checksum} {datas bitmaps : Mem} {inputData inputBitmap : Nat}

/-- What can be said of the entries that are read, whatever stands in memory: they are no
more than those to go, they have been staged, and their sizes fit 32 bits. -/
structure Bounded (n : Nat) (xs : List Survivor) : Prop where
  length : xs.length ≤ n
  staged : AllStaged xs
  size : ∀ x ∈ xs, x.handle.size.toNat < 2 ^ 32

theorem Bounded.nil : Bounded 0 [] := ⟨le_rfl, forall_mem_nil _, forall_mem_nil _⟩

theorem Bounded.append {n k : Nat} {xs ys : List Survivor} (hxs : Bounded n xs) (hys : Bounded k ys) :
    Bounded (n + k) (xs ++ ys) where
  length := by
    rw [length_append]
    exact Nat.add_le_add hxs.length hys.length
  staged := forall_mem_append.mpr ⟨hxs.staged, hys.staged⟩
  size := forall_mem_append.mpr ⟨hxs.size, hys.size⟩

theorem readEntries_bounded {i n j curOffset : Nat} {keySize valueSize : UInt32} {xs : List Survivor}
    (h : readEntries datas bitmaps inputData inputBitmap i n j curOffset keySize valueSize = some xs) :
    Bounded n xs := by
  induction n generalizing j curOffset keySize valueSize xs with
  | zero =>
    obtain rfl := Option.some.inj h
    exact .nil
  | succ n ih =>
    rw [readEntries] at h
    dsimp only at h
    split at h
    · cases h
    · rename_i kv hkv
      obtain ⟨ys, hys, rfl⟩ := Option.map_eq_some_iff.mp h
      rw [Nat.add_comm]
      refine Bounded.append ?_ (ih hys)
      split
      · rename_i hvalid
        rw [hvalid] at hkv
        obtain ⟨hstaged, hend⟩ := getKV_bounds hkv
        refine ⟨le_rfl, forall_mem_singleton.mpr hstaged, forall_mem_singleton.mpr ?_⟩
        exact Nat.lt_of_le_of_lt (Nat.mod_le _ _) (by omega)
      · exact ⟨Nat.zero_le _, forall_mem_nil _, forall_mem_nil _⟩

theorem readFiles_bounded {fs : List KernelInput} {i : Nat} {xs : List Survivor}
    (h : readFiles datas bitmaps fs i inputData inputBitmap = some xs) :
    Bounded (fs.map (·.entries)).sum xs := by
  induction fs generalizing i inputData inputBitmap xs with
  | nil =>
    obtain rfl := Option.some.inj h
    exact .nil
  | cons f fs ih =>
    obtain ⟨ys, hys, hrest⟩ := Option.bind_eq_some_iff.mp h
    obtain ⟨zs, hzs, rfl⟩ := Option.map_eq_some_iff.mp hrest
    exact (readEntries_bounded hys).append (ih hzs)

/-! ## What is rewritten -/

/-- The tuple of a survivor that is copied to an offset of the output file. -/
def Survivor.tuple (x : Survivor) (newOffset : Nat) : Bytes :=
  keyTuple x.record.key newOffset x.input x.handle.offset.toNat x.handle.size.toNat

def tuplesFrom (newOffset : Nat) : List Survivor → Bytes
  | [] => []
  | x :: xs => Survivor.tuple x newOffset ++ tuplesFrom (newOffset + (plainEntry x.record).length) xs

theorem tuplesFrom_append (newOffset : Nat) (xs ys : List Survivor) :
    tuplesFrom newOffset (xs ++ ys) =
      tuplesFrom newOffset xs ++
        tuplesFrom (newOffset + (entries (xs.map (·.record))).length) ys := by
  induction xs generalizing newOffset with
  | nil => rfl
  | cons x xs ih =>
    simp only [cons_append, tuplesFrom, ih, append_assoc, map_cons, entries_cons,
      length_append, Nat.add_assoc]

namespace Progress

/-- The buffers after the survivors have been appended to them. -/
def rewrite (p : Progress) (xs : List Survivor) : Progress where
  data := write p.data p.dataOffset (entries (xs.map (·.record)))
  key := write p.key p.keyOffset (tuplesFrom p.dataOffset xs)
  dataOffset := p.dataOffset + (entries (xs.map (·.record))).length
  keyOffset := p.keyOffset + (tuplesFrom p.dataOffset xs).length
  rewriteKeyNum := p.rewriteKeyNum + xs.length

theorem rewrite_append (p : Progress) (xs ys : List Survivor) :
    p.rewrite (xs ++ ys) = (p.rewrite xs).rewrite ys := by
  simp only [rewrite, map_append, entries_append, write_append, tuplesFrom_append,
    length_append, Nat.add_assoc]

end Progress

/-- Numbers are written in 32 bits, so a handle need not be looked at wider. -/
theorem keyTuple_handle (key : Bytes) (newOffset i offset size : Nat) :
    keyTuple key newOffset i (UInt64.ofNat offset).toNat (UInt64.ofNat size).toNat =
      keyTuple key newOffset i offset size := by
  have hwide : ∀ n, UInt32.ofNat (UInt64.ofNat n).toNat = UInt32.ofNat n := by
    intro n
    apply UInt32.toNat_inj.mp
    rw [UInt32.toNat_ofNat', UInt32.toNat_ofNat', UInt64.toNat_ofNat']
    exact Nat.mod_mod_of_dvd n (by norm_num)
  rw [keyTuple, keyTuple, hwide, hwide]

theorem entryLoop_eq (hcrc : crc.Agrees) (i n j curOffset : Nat) (keySize valueSize : UInt32) (p : Progress) :
    entryLoop crc datas bitmaps inputData inputBitmap i n j curOffset keySize valueSize p =
      (readEntries datas bitmaps inputData inputBitmap i n j curOffset keySize valueSize).map p.rewrite := by
  induction n generalizing j curOffset keySize valueSize p with
  | zero => rfl
  | succ n ih =>
    rw [entryLoop, readEntries]
    dsimp only
    cases getKV datas inputData curOffset (checkValid j bitmaps inputBitmap) keySize valueSize with
    | none => rfl
    | some kv =>
      simp only [ih, Option.map_map]
      refine Option.map_congr fun xs _ => ?_
      rw [Function.comp_apply, Progress.rewrite_append]
      congr 1
      cases checkValid j bitmaps inputBitmap with
      | false => rfl
      | true =>
        have hdata := putOutputData_eq hcrc p.data ⟨kv.key, kv.value⟩ p.dataOffset
        simp only [↓reduceIte, putOutputKey_eq, hdata, Progress.rewrite, tuplesFrom, Survivor.tuple,
          keyTuple_handle, map_cons, map_nil, entries_cons, entries_nil, append_nil, length_singleton]

theorem fileLoop_eq (hcrc : crc.Agrees) (fs : List KernelInput) (i : Nat) (p : Progress) :
    fileLoop crc datas bitmaps fs i inputData inputBitmap p =
      (readFiles datas bitmaps fs i inputData inputBitmap).map p.rewrite := by
  induction fs generalizing i inputData inputBitmap p with
  | nil => rfl
  | cons f fs ih =>
    rw [fileLoop, readFiles]
    simp only [entryLoop_eq hcrc]
    cases readEntries datas bitmaps inputData inputBitmap i f.entries 0 (decodeHeader datas inputData 0).2
        0 0 with
    | none => rfl
    | some xs =>
      simp only [Option.map_some, Option.bind_some, ih, Option.map_map]
      exact Option.map_congr fun ys _ => (p.rewrite_append xs ys).symm

def started (data key : Mem) : Progress :=
  ⟨write data 0 ({} : BlobFileHeader).encodeTo, key, kBlobMaxHeaderSize, 0, 0⟩

def finished (crc : Checksum) (p : Progress) : KernelOutput :=
  let (data, dataOffset) := encodeFooter crc p.data p.dataOffset
  ⟨data, p.key, p.rewriteKeyNum, dataOffset, p.keyOffset⟩

/-- The pass as a whole, whatever stands in memory: the header, every record that is kept
and the footer. -/
theorem gcKernel_eq (hcrc : crc.Agrees) (inputs : List KernelInput) (datas bitmaps data key : Mem) :
    gcKernel crc inputs datas bitmaps data key =
      (readFiles datas bitmaps inputs 0 0 0).map fun xs => finished crc ((started data key).rewrite xs) := by
  rw [gcKernel, encodeHeader_eq]
  simp only [fileLoop_eq hcrc]
  cases readFiles datas bitmaps inputs 0 0 0 <;> rfl

/-! ## Files on the device -/

/-- A file of uncompressed records as the kernel finds it: of what follows the entries only
the size matters, which is at least that of a footer. `dataLength` is the distance to the next file. -/
structure StoredFile where
  header : BlobFileHeader
  records : List BlobRecord
  size : Nat
  bitmap : BitMap
  dataLength : Nat
  accepted : Accepted header
  covers : records.length ≤ bitmap.validBits
  footer : header.size + (entries records).length + kBlobFooterSize ≤ size

def StoredFile.args (f : StoredFile) : KernelInput := ⟨f.dataLength, f.bitmap.bits.length, f.records.length⟩

/-- Header and entries of the files stand in device memory where the kernel looks for them,
and so do the bitmaps. -/
def Stored (datas bitmaps : Mem) : Nat → Nat → List StoredFile → Prop
  | _, _, [] => True
  | inputData, inputBitmap, f :: fs =>
    HasAt datas inputData (f.header.encodeTo ++ entries f.records) ∧ HasAt bitmaps inputBitmap f.bitmap.bits ∧
      Stored datas bitmaps (inputData + f.dataLength) (inputBitmap + f.bitmap.bits.length) fs

def keptFrom : Nat → List StoredFile → List Survivor
  | _, [] => []
  | i, f :: fs => survivorsFrom f.bitmap.bit i f.header.size 0 f.records ++ keptFrom (i + 1) fs

theorem readEntries_iff {bit : Nat → Bool} {rs : List BlobRecord} (hfits : ∀ r ∈ rs, r.Fits)
    {j curOffset : Nat} (hat : HasAt datas (inputData + curOffset) (entries rs))
    (hbits : ∀ k, j ≤ k → k < j + rs.length → checkValid k bitmaps inputBitmap = !bit k)
    (i : Nat) (keySize valueSize : UInt32) (xs : List Survivor) :
    readEntries datas bitmaps inputData inputBitmap i rs.length j curOffset keySize valueSize = some xs ↔
      AllStaged (survivorsFrom bit i curOffset j rs) ∧ xs = survivorsFrom bit i curOffset j rs := by
  induction rs generalizing j curOffset keySize valueSize xs with
  | nil =>
    rw [length_nil, readEntries, Option.some_inj]
    exact ⟨fun h => ⟨forall_mem_nil _, h.symm⟩, fun h => h.2.symm⟩
  | cons r rs ih =>
    rw [entries_cons] at hat
    obtain ⟨hentry, hrest⟩ := hasAt_append.mp hat
    rw [Nat.add_assoc] at hrest
    have hvalid : checkValid j bitmaps inputBitmap = !bit j := hbits j le_rfl (by simp)
    have hr := hfits r mem_cons_self
    have hnext := ih (j := j + 1) (fun r hr => hfits r (mem_cons_of_mem _ hr)) hrest
      (fun k hle hlt => hbits k (by omega) (by rw [length_cons]; omega))
    rw [length_cons, readEntries, survivorsFrom, hvalid]
    cases bit j with
    | true =>
      obtain ⟨kv, hkv, hoffset, -⟩ := getKV_eq hr hentry false
        (fun h => absurd h Bool.false_ne_true) keySize valueSize
      simp only [Bool.not_true, hkv, hoffset, Bool.false_eq_true, ↓reduceIte, nil_append, Option.map_id']
      exact hnext kv.keySize kv.valueSize xs
    | false =>
      cases hkv : getKV datas inputData curOffset (!false) keySize valueSize with
      | none =>
        -- the record does not fit, and it is among the survivors
        have hnot : ¬ Staged r := by
          intro hs
          obtain ⟨kv, hkv', -⟩ := getKV_eq hr hentry true (fun _ => hs) keySize valueSize
          rw [Bool.not_false, hkv'] at hkv
          cases hkv
        exact ⟨fun h => absurd h (Option.some_ne_none xs).symm,
          fun h => absurd (h.1 _ mem_cons_self) hnot⟩
      | some kv =>
        have hs := staged_of_getKV hr hentry hkv
        obtain ⟨kv', hkv', hoffset, hkept⟩ := getKV_eq hr hentry true (fun _ => hs) keySize valueSize
        rw [Bool.not_false, hkv'] at hkv
        obtain rfl := Option.some.inj hkv
        obtain ⟨hkey, hvalue⟩ := hkept rfl
        simp only [hkey, hvalue, hoffset, Nat.add_sub_cancel_left, Bool.not_false, ↓reduceIte,
          Bool.false_eq_true, Option.map_eq_some_iff, hnext, singleton_append]
        rw [AllStaged, AllStaged, forall_mem_cons, and_assoc, and_iff_right hs]
        constructor
        · rintro ⟨ys, ⟨hstaged, rfl⟩, rfl⟩
          exact ⟨hstaged, rfl⟩
        · rintro ⟨hstaged, rfl⟩
          exact ⟨_, ⟨hstaged, rfl⟩, rfl⟩

theorem checkValid_eq {bm : BitMap} (hat : HasAt bitmaps inputBitmap bm.bits) {k : Nat}
    (hk : k ≤ bm.validBits) : checkValid k bitmaps inputBitmap = !bm.bit k := by
  have hlt : k >>> 3 < bm.bits.length := by
    have := bm.size
    simp only [Nat.shiftRight_eq_div_pow] at this ⊢
    omega
  have hbyte : bitmaps (inputBitmap + (k >>> 3)) = bm.bits.getD (k >>> 3) 0 := by
    rw [getD_eq_getElem _ _ hlt]
    exact getElem_of_hasAt hat hlt
  rw [checkValid, BitMap.bit, bitIn, hbyte]
  simp

/-- Of files whose records are whole the kernel reads the survivors, if they can be staged. -/
theorem readFiles_iff {fs : List StoredFile} (hfits : ∀ f ∈ fs, ∀ r ∈ f.records, r.Fits)
    (hstored : Stored datas bitmaps inputData inputBitmap fs) (i : Nat) (xs : List Survivor) :
    readFiles datas bitmaps (fs.map StoredFile.args) i inputData inputBitmap = some xs ↔
      AllStaged (keptFrom i fs) ∧ xs = keptFrom i fs := by
  induction fs generalizing inputData inputBitmap i xs with
  | nil =>
    rw [map_nil, readFiles, Option.some_inj]
    exact ⟨fun h => ⟨forall_mem_nil _, h.symm⟩, fun h => h.2.symm⟩
  | cons f fs ih =>
    obtain ⟨hfile, hbitmap, hnext⟩ := hstored
    obtain ⟨hheader, hentries⟩ := hasAt_append.mp hfile
    rw [BlobFileHeader.encodeTo_length f.accepted.version] at hentries
    have hbits : ∀ k, 0 ≤ k → k < 0 + f.records.length →
        checkValid k bitmaps inputBitmap = !f.bitmap.bit k :=
      fun k _ hlt => checkValid_eq hbitmap (by have := f.covers; omega)
    have hentry := readEntries_iff (hfits f mem_cons_self) hentries hbits i 0 0
    have hrest := ih (fun f hf => hfits f (mem_cons_of_mem _ hf)) hnext (i + 1)
    rw [map_cons, readFiles, decodeHeader_eq f.accepted hheader, keptFrom, AllStaged, forall_mem_append]
    simp only [StoredFile.args, Option.bind_eq_some_iff, Option.map_eq_some_iff] at hentry hrest ⊢
    simp only [hentry, hrest]
    constructor
    · rintro ⟨ys, ⟨hys, rfl⟩, zs, ⟨hzs, rfl⟩, rfl⟩
      exact ⟨⟨hys, hzs⟩, rfl⟩
    · rintro ⟨⟨hys, hzs⟩, rfl⟩
      exact ⟨_, ⟨hys, rfl⟩, _, ⟨hzs, rfl⟩, rfl⟩

theorem allStaged_keptFrom {fs : List StoredFile} (hstaged : ∀ f ∈ fs, ∀ r ∈ f.records, Staged r) (i : Nat) :
    AllStaged (keptFrom i fs) := by
  induction fs generalizing i with
  | nil => exact forall_mem_nil _
  | cons f fs ih =>
    refine forall_mem_append.mpr ⟨fun x hx => ?_, ih (fun g hg => hstaged g (mem_cons_of_mem _ hg)) (i + 1)⟩
    obtain ⟨before, after, hrecords, -⟩ := mem_survivorsFrom hx
    exact hstaged f mem_cons_self _ (hrecords ▸ mem_append_right _ mem_cons_self)

/-- A built file with the distance from its data to that of the next input. -/
structure DeviceInput extends GcInput where
  dataLength : Nat

def DeviceInput.args (f : DeviceInput) : KernelInput :=
  ⟨f.dataLength, f.bitmap.bits.length, f.file.records.length⟩

/-- The inputs and their bitmaps stand in device memory where the kernel looks for them. -/
def Loaded (datas bitmaps : Mem) : Nat → Nat → List DeviceInput → Prop
  | _, _, [] => True
  | inputData, inputBitmap, f :: fs =>
    HasAt datas inputData f.file.image ∧ HasAt bitmaps inputBitmap f.bitmap.bits ∧
      Loaded datas bitmaps (inputData + f.dataLength) (inputBitmap + f.bitmap.bits.length) fs

def DeviceInput.stored (f : DeviceInput) : StoredFile where
  header := f.file.header
  records := f.file.records
  size := f.file.image.length
  bitmap := f.bitmap
  dataLength := f.dataLength
  accepted := ⟨f.file.valid, UInt32.zero_and⟩
  covers := f.covers
  footer := f.file.image_length.ge

variable {fs : List DeviceInput}

theorem Loaded.stored (hload : Loaded datas bitmaps inputData inputBitmap fs) :
    Stored datas bitmaps inputData inputBitmap (fs.map DeviceInput.stored) := by
  induction fs generalizing inputData inputBitmap with
  | nil => trivial
  | cons f fs ih =>
    obtain ⟨himage, hbitmap, hnext⟩ := hload
    rw [PlainFile.image_eq] at himage
    exact ⟨(hasAt_append.mp himage).1, hbitmap, ih hnext⟩

theorem keptFrom_stored (fs : List DeviceInput) (i : Nat) :
    keptFrom i (fs.map DeviceInput.stored) = survivors (fs.map (·.toGcInput)) i := by
  induction fs generalizing i with
  | nil => rfl
  | cons f fs ih =>
    rw [map_cons, map_cons, keptFrom, survivors_cons, ih]
    rfl

theorem allStaged_survivors (hstaged : ∀ f ∈ fs, ∀ r ∈ f.file.records, Staged r) :
    AllStaged (survivors (fs.map (·.toGcInput)) 0) := by
  rw [← keptFrom_stored]
  exact allStaged_keptFrom (forall_mem_map.mpr hstaged) 0

/-- Of built files that are loaded the survivors are rewritten. -/
theorem gcKernel_loaded (hcrc : crc.Agrees) (hstaged : ∀ f ∈ fs, ∀ r ∈ f.file.records, Staged r)
    (hload : Loaded datas bitmaps 0 0 fs) (data key : Mem) :
    gcKernel crc (fs.map DeviceInput.args) datas bitmaps data key =
      some (finished crc ((started data key).rewrite (survivors (fs.map (·.toGcInput)) 0))) := by
  have hfits : ∀ f ∈ fs.map DeviceInput.stored, ∀ r ∈ f.records, r.Fits :=
    forall_mem_map.mpr fun f hf r hr => (hstaged f hf r hr).fits
  have hreads := (readFiles_iff hfits hload.stored 0 _).mpr
    ⟨by rw [keptFrom_stored]; exact allStaged_survivors hstaged, rfl⟩
  rw [map_map, keptFrom_stored] at hreads
  rw [gcKernel_eq hcrc, show fs.map DeviceInput.args = fs.map (StoredFile.args ∘ DeviceInput.stored) from rfl,
    hreads, Option.map_some]

end TitanGC.Kernel.GcKernel
