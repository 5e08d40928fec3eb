import TitanGC.Kernel.GcKernel

/-!
# What the host reads back

`GetOutputKey` of the driver decodes the tuples of the output keys. Together with
the output file they tell the host of every surviving record: where it was, where
it is now, and both places hold it.
-/

namespace TitanGC.Kernel.Readback

open Lib Lib.ByteCoding Lib.Memory List UInt64 Format.Coding Format.BlobFile Storage.Builder
open FileFormat GcKernel

/-- The key and the `decode_result` of a tuple. -/
structure OutputKey where
  key : Bytes
  newOffset : UInt32
  originalFile : UInt32
  originalOffset : UInt32
  size : UInt32
  deriving DecidableEq

/-- `DecodeFixed32` of the base DB at a pointer. -/
def fixed32At (m : Mem) (a : Nat) : UInt32 := UInt32.ofNat (decodeFixed (slice m a 4))

/-- `none` is a null pointer from `GetVarint32Ptr`. -/
def getOutputKey (m : Mem) (curOffset : Nat) : Option (OutputKey × Nat) :=
  match getVarint32 (slice m curOffset 5) with
  | none => none
  | some (keySize, rest) =>
    let offset := 5 - rest.length
    let data := curOffset + offset + keySize.toNat
    some (⟨slice m (curOffset + offset) keySize.toNat, fixed32At m data, fixed32At m (data + 4),
      fixed32At m (data + 8), fixed32At m (data + 12)⟩,
      curOffset + (offset + keySize.toNat + 16))

/-- The loop of `run_gc_kernel` over the tuples. -/
def getOutputKeys (m : Mem) : Nat → Nat → Option (List OutputKey)
  | 0, _ => some []
  | n + 1, curOffset =>
    match getOutputKey m curOffset with
    | none => none
    | some (k, curOffset) =>
      match getOutputKeys m n curOffset with
      | none => none
      | some ks => some (k :: ks)

/-! ## Decoding the tuples -/

variable {m : Mem} {a : Nat}

theorem fixed32At_eq {v : UInt32} (h : HasAt m a (putFixed32 v)) : fixed32At m a = v := by
  have hval : decodeFixed (putFixed32 v) = v.toNat := decodeFixed_encodeFixed v.toNat_lt
  have hslice : slice m a (putFixed32 v).length = putFixed32 v := h
  rw [putFixed32_length] at hslice
  rw [fixed32At, hslice, hval, UInt32.ofNat_toNat]

theorem getOutputKey_keyTuple {key : Bytes} (hkey : key.length < 2 ^ 32)
    {newOffset file offset size : Nat} (hat : HasAt m a (keyTuple key newOffset file offset size)) :
    getOutputKey m a =
      some (⟨key, UInt32.ofNat newOffset, UInt32.ofNat file, UInt32.ofNat offset,
        UInt32.ofNat size⟩, a + (keyTuple key newOffset file offset size).length) := by
  rw [keyTuple_length]
  rw [keyTuple] at hat
  obtain ⟨hat, hsize⟩ := hasAt_append.mp hat
  obtain ⟨hat, hoffset⟩ := hasAt_append.mp hat
  obtain ⟨hat, hfile⟩ := hasAt_append.mp hat
  obtain ⟨hat, hnew⟩ := hasAt_append.mp hat
  obtain ⟨hlen, hkeyAt⟩ := hasAt_append.mp hat
  simp only [length_append, putFixed32_length, ← Nat.add_assoc] at hsize hoffset hfile hnew
  have hnat : (UInt32.ofNat key.length).toNat = key.length := UInt32.toNat_ofNat_of_lt' hkey
  have hle : (putVarint32 (UInt32.ofNat key.length)).length ≤ 5 := encodeVarint_length_le 4 _
  have hcount : 5 - (5 - (putVarint32 (UInt32.ofNat key.length)).length) =
      (putVarint32 (UInt32.ofNat key.length)).length := by omega
  have hkeySlice : slice m (a + (putVarint32 (UInt32.ofNat key.length)).length) key.length = key :=
    hkeyAt
  rw [getOutputKey, slice_of_hasAt hlen hle, getVarint32_putVarint32]
  simp only [slice_length, hcount, hnat, hkeySlice, fixed32At_eq hnew, fixed32At_eq hfile,
    fixed32At_eq hoffset, fixed32At_eq hsize]

/-- What the tuples of survivors decode to. -/
def outputKeysFrom (newOffset : Nat) : List Survivor → List OutputKey
  | [] => []
  | x :: xs =>
    ⟨x.record.key, UInt32.ofNat newOffset, UInt32.ofNat x.input,
      UInt32.ofNat x.handle.offset.toNat, UInt32.ofNat x.handle.size.toNat⟩ ::
      outputKeysFrom (newOffset + (plainEntry x.record).length) xs

theorem getOutputKeys_tuplesFrom {xs : List Survivor} (hkeys : ∀ x ∈ xs, x.record.key.length < 2 ^ 32)
    {newOffset : Nat} (hat : HasAt m a (tuplesFrom newOffset xs)) :
    getOutputKeys m xs.length a = some (outputKeysFrom newOffset xs) := by
  induction xs generalizing a newOffset with
  | nil => rfl
  | cons x xs ih =>
    rw [tuplesFrom] at hat
    obtain ⟨htuple, hrest⟩ := hasAt_append.mp hat
    rw [length_cons, getOutputKeys,
      getOutputKey_keyTuple (hkeys x mem_cons_self) htuple]
    simp only
    rw [← Survivor.tuple, ih (fun x hx => hkeys x (mem_cons_of_mem _ hx)) hrest]
    rfl

/-! ## The records -/

/-- A decoded tuple tells of a survivor, and both of its places hold the record. -/
structure Reports (fs : List GcInput) (output : Bytes) (k : OutputKey) (x : Survivor) : Prop where
  key : k.key = x.record.key
  file : k.originalFile.toNat = x.input
  offset : k.originalOffset.toNat = x.handle.offset.toNat
  size : k.size.toNat = x.handle.size.toNat
  copy : ∀ c beyond,
    decodeEntry c beyond ((output.drop k.newOffset.toNat).take k.size.toNat) = .ok x.record
  original : ∃ f, fs[k.originalFile.toNat]? = some f ∧ ∀ c beyond,
    decodeEntry c beyond ((f.file.image.drop k.originalOffset.toNat).take k.size.toNat) =
      .ok x.record

structure WithinLimits (fs : List GcInput) : Prop where
  staged : ∀ f ∈ fs, ∀ r ∈ f.file.records, Staged r
  total : totalSize fs < 2 ^ 32

theorem entry_between (x y : Bytes) (r : BlobRecord) :
    ((x ++ (plainEntry r ++ y)).drop x.length).take (plainEntry r).length = plainEntry r := by
  rw [drop_left, take_left]

theorem entry_in_image {f : PlainFile} {before after : List BlobRecord} {r : BlobRecord}
    (hrecords : f.records = before ++ r :: after) :
    (f.image.drop (f.header.size + (entries before).length)).take (plainEntry r).length =
      plainEntry r := by
  have hsplit : f.image = (f.header.encodeTo ++ entries before) ++
      (plainEntry r ++ (entries after ++ ({} : BlobFileFooter).encodeTo)) := by
    rw [PlainFile.image_eq, hrecords, entries_append, entries_cons]
    simp only [append_assoc]
  rw [hsplit, ← BlobFileHeader.encodeTo_length f.valid, ← length_append]
  exact entry_between _ _ _

section

variable {fs : List GcInput} {x : Survivor}

theorem staged_of_survivor (hfs : WithinLimits fs) (hx : x ∈ survivors fs 0) : Staged x.record := by
  obtain ⟨f, before, after, -, hget, hrecords, -⟩ := mem_survivors hx
  exact hfs.staged f (mem_of_getElem? hget) _ (by rw [hrecords]; simp)

/-- The numbers of a survivor's tuple fit 32 bits. -/
theorem survivor_bounds (hfs : WithinLimits fs) (hx : x ∈ survivors fs 0) :
    ∃ f before after, fs[x.input]? = some f ∧ f.file.records = before ++ x.record :: after ∧
      x.handle.offset.toNat = f.file.header.size + (entries before).length ∧
      x.handle.size.toNat = (plainEntry x.record).length ∧
      x.handle.index.toNat = before.length ∧ x.input < 2 ^ 32 ∧
      f.file.header.size + (entries before).length < 2 ^ 32 ∧
      (plainEntry x.record).length < 2 ^ 32 := by
  obtain ⟨f, before, after, -, hget, hrecords, hhandle⟩ := mem_survivors hx
  have htotal := hfs.total
  have himage := image_length_le_totalSize (mem_of_getElem? hget)
  rw [PlainFile.image_length, hrecords, entries_append, entries_cons, length_append,
    length_append] at himage
  have hbefore : before.length ≤ (entries before).length := length_le_entries before
  have hinput : x.input < fs.length := (List.getElem?_eq_some_iff.mp hget).1
  have hfiles := entries_survivors_le fs 0
  refine ⟨f, before, after, hget, hrecords, ?_, ?_, ?_, by omega, by omega, by omega⟩
  · rw [hhandle]
    exact toNat_ofNat_of_lt' (by unfold UInt64.size; omega)
  · rw [hhandle]
    exact toNat_ofNat_of_lt' (by unfold UInt64.size; omega)
  · rw [hhandle]
    exact toNat_ofNat_of_lt' (by unfold UInt64.size; omega)

/-- The survivors stand in the output file one after the other, behind the header. -/
theorem reports_outputKeysFrom (hfs : WithinLimits fs) {output tail : Bytes}
    (houtput : output = ({} : BlobFileHeader).encodeTo ++
      entries ((survivors fs 0).map (·.record)) ++ tail) (before xs : List Survivor)
    (hxs : survivors fs 0 = before ++ xs) :
    List.Forall₂ (Reports fs output)
      (outputKeysFrom (kBlobMaxHeaderSize + (entries (before.map (·.record))).length) xs) xs := by
  induction xs generalizing before with
  | nil => exact .nil
  | cons x xs ih =>
    have hx : x ∈ survivors fs 0 := by rw [hxs]; simp
    obtain ⟨f, earlier, later, hget, hrecords, hoffset, hsize, -, hinput, hoffsetLt, hsizeLt⟩ :=
      survivor_bounds hfs hx
    have hstaged := staged_of_survivor hfs hx
    have hdecode := decodeEntry_plainEntry hstaged.fits
      (by rw [plainEntry_length] at hsizeLt; omega)
    have hnew : kBlobMaxHeaderSize + (entries (before.map (·.record))).length < 2 ^ 32 := by
      have hkept := entries_survivors_le fs 0
      have htotal := hfs.total
      have hfiles : 0 < fs.length := Nat.lt_of_le_of_lt (Nat.zero_le _)
        (List.getElem?_eq_some_iff.mp hget).1
      rw [hxs, map_append, entries_append, length_append] at hkept
      rw [kBlobMaxHeaderSize]
      omega
    have hcopy : (output.drop (kBlobMaxHeaderSize + (entries (before.map (·.record))).length)).take
        (plainEntry x.record).length = plainEntry x.record := by
      have hheader : ({} : BlobFileHeader).encodeTo.length = kBlobMaxHeaderSize := by decide
      have hsplit : output = (({} : BlobFileHeader).encodeTo ++ entries (before.map (·.record))) ++
          (plainEntry x.record ++ (entries (xs.map (·.record)) ++ tail)) := by
        rw [houtput, hxs, map_append, map_cons, entries_append, entries_cons]
        simp only [append_assoc]
      rw [hsplit, ← hheader, ← length_append]
      exact entry_between _ _ _
    have hrest := ih (before ++ [x]) (by rw [hxs]; simp)
    rw [map_append, entries_append, length_append, ← Nat.add_assoc, map_singleton,
      entries_cons, entries_nil, append_nil] at hrest
    refine .cons ?_ hrest
    have hinput32 := UInt32.toNat_ofNat_of_lt' hinput
    have hoffset32 := UInt32.toNat_ofNat_of_lt' (hoffset ▸ hoffsetLt)
    have hsize32 := UInt32.toNat_ofNat_of_lt' (hsize ▸ hsizeLt)
    have hnew32 := UInt32.toNat_ofNat_of_lt' hnew
    refine ⟨rfl, hinput32, hoffset32, hsize32, fun c beyond => ?_,
      f, by rw [hinput32]; exact hget, fun c beyond => ?_⟩
    · rw [hnew32, hsize32, hsize, hcopy]
      exact hdecode c beyond
    · rw [hoffset32, hsize32, hoffset, hsize, entry_in_image hrecords]
      exact hdecode c beyond

end

/-! ## The output file -/

/-- What the host writes to the output file. -/
def KernelOutput.file (out : KernelOutput) : Bytes := slice out.data 0 out.dataSize

/-- What the buffer holds when the footer has been written behind entries: a header, the
entries, what lay in the buffer up to a page, and a footer. -/
theorem slice_encodeFooter {crc : Checksum} (hcrc : crc.Agrees) {p : Progress} {data : Mem}
    {rs : List BlobRecord} (hdata : p.data = write (write data 0 ({} : BlobFileHeader).encodeTo)
      kBlobMaxHeaderSize (entries rs))
    (hoffset : p.dataOffset = kBlobMaxHeaderSize + (entries rs).length) :
    slice (encodeFooter crc p.data p.dataOffset).1 0 (encodeFooter crc p.data p.dataOffset).2 =
      ({} : BlobFileHeader).encodeTo ++ entries rs ++
        (slice p.data p.dataOffset (footerOffset p.dataOffset - p.dataOffset) ++
          sealFooter (({} : BlockHandle).encodeTo ++ footerPadding p.data p.dataOffset)) ∧
    (({} : BlockHandle).encodeTo ++ footerPadding p.data p.dataOffset).length = kBlobFooterSize - 12 := by
  have hpadding : (({} : BlockHandle).encodeTo ++ footerPadding p.data p.dataOffset).length =
      kBlobFooterSize - 12 := by
    rw [length_append, footerPadding, slice_length]
    decide
  have hfooter := sealFooter_length hpadding
  have hheader : ({} : BlobFileHeader).encodeTo.length = kBlobMaxHeaderSize := by decide
  have hentries : slice p.data 0 p.dataOffset = ({} : BlobFileHeader).encodeTo ++ entries rs := by
    have hstart := slice_write_end data 0 ({} : BlobFileHeader).encodeTo
    rw [Nat.zero_add, hheader, slice, nil_append] at hstart
    rw [hdata, hoffset, slice_write_end, hstart]
  have hgap : slice p.data 0 (footerOffset p.dataOffset) =
      ({} : BlobFileHeader).encodeTo ++ entries rs ++
        slice p.data p.dataOffset (footerOffset p.dataOffset - p.dataOffset) := by
    have hsplit := slice_append p.data 0 p.dataOffset (footerOffset p.dataOffset - p.dataOffset)
    rwa [Nat.add_sub_cancel' (le_footerOffset _), Nat.zero_add, hentries] at hsplit
  have hend := slice_write_end p.data (footerOffset p.dataOffset)
    (sealFooter (({} : BlockHandle).encodeTo ++ footerPadding p.data p.dataOffset))
  rw [hfooter, hgap, append_assoc] at hend
  rw [encodeFooter_eq hcrc]
  exact ⟨hend, hpadding⟩

/-- The kernel writes a readable blob file: header and footer decode, and the tuples are
those of the surviving records, in file then entry order. -/
theorem gcKernel_readable {crc : Checksum} (hcrc : crc.Agrees) {fs : List DeviceInput}
    (hfs : WithinLimits (fs.map (·.toGcInput))) {datas bitmaps : Mem}
    (hload : Loaded datas bitmaps 0 0 fs) (data key : Mem) :
    ∃ out ks, gcKernel crc (fs.map DeviceInput.args) datas bitmaps data key = some out ∧
      (∃ header rest, BlobFileHeader.decodeFrom (KernelOutput.file out) = .ok (header, rest)) ∧
      kBlobFooterSize ≤ (KernelOutput.file out).length ∧
      (∃ footer, BlobFileFooter.decodeFrom ((KernelOutput.file out).drop
        ((KernelOutput.file out).length - kBlobFooterSize)) = .ok (footer, [])) ∧
      out.rewriteKeyNum = (survivors (fs.map (·.toGcInput)) 0).length ∧
      getOutputKeys out.key out.rewriteKeyNum 0 = some ks ∧
      List.Forall₂ (Reports (fs.map (·.toGcInput)) (KernelOutput.file out)) ks
        (survivors (fs.map (·.toGcInput)) 0) := by
  have hstaged : ∀ f ∈ fs, ∀ r ∈ f.file.records, Staged r := fun f hf =>
    hfs.staged f.toGcInput (mem_map_of_mem hf)
  have hkernel := gcKernel_loaded hcrc hstaged hload data key
  have hbounds : ∀ x ∈ survivors (fs.map (·.toGcInput)) 0, x.record.key.length < 2 ^ 32 :=
    fun x hx => (allStaged_survivors hstaged x hx).fits.key
  obtain ⟨hfile, hpadding⟩ := slice_encodeFooter hcrc
    (p := (started data key).rewrite (survivors (fs.map (·.toGcInput)) 0)) rfl rfl
  have hnum : (finished crc ((started data key).rewrite (survivors (fs.map (·.toGcInput)) 0))).rewriteKeyNum =
      (survivors (fs.map (·.toGcInput)) 0).length := Nat.zero_add _
  have hkeys := getOutputKeys_tuplesFrom hbounds (hasAt_write key 0
    (tuplesFrom kBlobMaxHeaderSize (survivors (fs.map (·.toGcInput)) 0)))
  change KernelOutput.file (finished crc _) = _ at hfile
  have hplain : ({} : BlobFileHeader).Plain := ⟨.inr rfl, rfl⟩
  have hfooterLength := sealFooter_length hpadding
  have hfooter := BlobFileFooter.decodeFrom_sealFooter {} hpadding []
  rw [append_nil] at hfooter
  refine ⟨_, outputKeysFrom kBlobMaxHeaderSize (survivors (fs.map (·.toGcInput)) 0), hkernel, ?_,
    ?_, ?_, hnum, ?_, ?_⟩
  · rw [hfile, append_assoc]
    exact ⟨_, _, BlobFileHeader.decodeFrom_encodeTo hplain _⟩
  · rw [hfile, ← append_assoc, length_append, hfooterLength]
    omega
  · refine ⟨⟨{}⟩, ?_⟩
    rw [hfile, ← append_assoc, length_append, hfooterLength, Nat.add_sub_cancel,
      drop_left]
    exact hfooter
  · rw [hnum]
    exact hkeys
  · exact reports_outputKeysFrom hfs hfile [] _ rfl

theorem oneBit_size : ([0] : Bytes).length = (1 >>> 3) + 1 := rfl

/-- A file of version 1 with two records, of which the first is invalid. -/
def twoRecords : DeviceInput where
  file := ⟨kVersion1, [⟨[1], [2]⟩, ⟨[3], [4, 5]⟩], kVersion1_valid⟩
  bitmap := ⟨2, [0x80], rfl⟩
  covers := le_rfl
  dataLength := 2 ^ 20

theorem gcKernel_readable_twoRecords :
    ∃ out ks, gcKernel (fun _ bs => Crc32c.value bs) [twoRecords.args]
        (ofBytes twoRecords.file.image) (ofBytes twoRecords.bitmap.bits) (fun _ => 0xff)
        (fun _ => 0xff) = some out ∧ out.rewriteKeyNum = 1 ∧ getOutputKeys out.key 1 0 = some ks ∧
      List.Forall₂ (Reports [twoRecords.toGcInput] (KernelOutput.file out)) ks
        [⟨0, ⟨[3], [4, 5]⟩, ⟨21, 14, 1⟩⟩] := by
  have hstaged : ∀ f ∈ [twoRecords].map (·.toGcInput), ∀ r ∈ f.file.records, Staged r := by
    simp only [map_cons, map_nil, mem_singleton, forall_eq, twoRecords]
    intro r hr
    simp only [mem_cons, not_mem_nil, or_false] at hr
    rcases hr with rfl | rfl <;> exact ⟨by decide, by decide⟩
  have hload : Loaded (ofBytes twoRecords.file.image) (ofBytes twoRecords.bitmap.bits) 0 0
      [twoRecords] := ⟨hasAt_ofBytes _, hasAt_ofBytes _, trivial⟩
  obtain ⟨out, ks, hkernel, -, -, -, hnum, hkeys, hreports⟩ :=
    gcKernel_readable (fun _ => rfl) ⟨hstaged, by decide⟩ hload (fun _ => 0xff) (fun _ => 0xff)
  have hsurvivors : survivors ([twoRecords].map (·.toGcInput)) 0 =
      [⟨0, ⟨[3], [4, 5]⟩, ⟨21, 14, 1⟩⟩] := rfl
  rw [hsurvivors] at hnum hreports
  rw [hnum] at hkeys
  exact ⟨out, ks, hkernel, hnum, hkeys, hreports⟩

end TitanGC.Kernel.Readback
