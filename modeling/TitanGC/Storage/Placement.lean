import TitanGC.Storage.Writer

/-!
# Where the builder puts its records

On a file that takes every append, the contexts that `BlobFileBuilder` hands out carry
the places of their records: one entry after the other behind the header, counted in
the order in which they were added. With a dictionary the same holds, only that the
contexts come out later.
-/

namespace TitanGC.Storage.Placement

open Lib.ByteCoding List Format.BlobFormat Format.BlobFile Writer BlobFileBuilder

/-- What is given to the builder: a context, with its record unless the value is in the
context. -/
structure Item where
  ctx : BlobRecordContext
  record : Option BlobRecord
  hasValue : ctx.hasValue = record.isNone

def records (xs : List Item) : List BlobRecord := xs.filterMap Item.record

def encoded (c : Compression) (rs : List BlobRecord) : Bytes := rs.flatMap (encodeRecord c)

variable (c : Compression)

@[simp] theorem encoded_nil : encoded c [] = [] := rfl

@[simp] theorem encoded_cons (r : BlobRecord) (rs : List BlobRecord) :
    encoded c (r :: rs) = encodeRecord c r ++ encoded c rs := flatMap_cons

@[simp] theorem encoded_append (rs rs' : List BlobRecord) :
    encoded c (rs ++ rs') = encoded c rs ++ encoded c rs' := flatMap_append

@[simp] theorem records_append (xs ys : List Item) : records (xs ++ ys) = records xs ++ records ys :=
  filterMap_append

/-- The contexts as they come out, when the first record goes to an offset and an index. -/
def place (c : Compression) : Nat → Nat → List Item → List BlobRecordContext
  | _, _, [] => []
  | offset, index, x :: xs =>
    match x.record with
    | none => x.ctx :: place c offset index xs
    | some r =>
      x.ctx.withHandle ⟨UInt64.ofNat offset, UInt64.ofNat (encodeRecord c r).length,
        UInt64.ofNat index⟩ :: place c (offset + (encodeRecord c r).length) (index + 1) xs

theorem place_append (offset index : Nat) (xs ys : List Item) :
    place c offset index (xs ++ ys) = place c offset index xs ++
      place c (offset + (encoded c (records xs)).length) (index + (records xs).length) ys := by
  induction xs generalizing offset index with
  | nil => rfl
  | cons x xs ih =>
    rw [cons_append, place, place]
    cases hrecord : x.record with
    | none => simp [ih, records, hrecord]
    | some r => simp [ih, records, hrecord, Nat.add_assoc, Nat.add_comm 1]

def handles (c : Compression) : Nat → Nat → List BlobRecord → List BlobHandle
  | _, _, [] => []
  | offset, index, r :: rs =>
    ⟨UInt64.ofNat offset, UInt64.ofNat (encodeRecord c r).length, UInt64.ofNat index⟩ ::
      handles c (offset + (encodeRecord c r).length) (index + 1) rs

/-! ## Appends that succeed -/

def Quiet (w : WritableFile) : Prop := ∀ n, w.outcome n = none

/-- Bytes have been appended, and nothing else of note has changed. -/
structure Extends (b b' : BlobFileBuilder) (data : Bytes) (count : Nat) : Prop where
  status : b'.status = none
  quiet : Quiet b'.file
  bytes : b'.file.bytes = b.file.bytes ++ data
  numEntries : b'.numEntries = b.numEntries + count
  version : b'.version = b.version
  compressionDict : b'.compressionDict = b.compressionDict
  cachedContexts : b'.cachedContexts = b.cachedContexts
  sampleRecords : b'.sampleRecords = b.sampleRecords
  builderState : b'.builderState = b.builderState

theorem Extends.ok {b b' : BlobFileBuilder} {data : Bytes} {n : Nat} (h : Extends b b' data n) :
    b'.ok = true :=
  Option.isNone_iff_eq_none.mpr h.status

theorem Extends.trans {b b' b'' : BlobFileBuilder} {data data' : Bytes} {n n' : Nat}
    (h : Extends b b' data n) (h' : Extends b' b'' data' n') :
    Extends b b'' (data ++ data') (n + n') where
  status := h'.status
  quiet := h'.quiet
  bytes := by rw [h'.bytes, h.bytes, append_assoc]
  numEntries := by rw [h'.numEntries, h.numEntries, Nat.add_assoc]
  version := h'.version.trans h.version
  compressionDict := h'.compressionDict.trans h.compressionDict
  cachedContexts := h'.cachedContexts.trans h.cachedContexts
  sampleRecords := h'.sampleRecords.trans h.sampleRecords
  builderState := h'.builderState.trans h.builderState

variable {b : BlobFileBuilder}

theorem append_extends (hquiet : Quiet b.file) (data : Bytes) :
    Extends b (b.append data) data 0 := by
  unfold BlobFileBuilder.append WritableFile.append
  rw [hquiet]
  exact ⟨rfl, hquiet, rfl, rfl, rfl, rfl, rfl, rfl, rfl⟩

variable (o : BuilderOptions)

theorem writeEncoderData_extends (hquiet : Quiet b.file) (record : Bytes) :
    Extends b (b.writeEncoderData o record).1
      (encodeSlice (o.compression b.compressionDict) record) 1 ∧
    (b.writeEncoderData o record).2 = ⟨UInt64.ofNat b.file.bytes.length,
      UInt64.ofNat (encodeSlice (o.compression b.compressionDict) record).length,
      UInt64.ofNat b.numEntries⟩ := by
  cases hdata : (o.compression b.compressionDict).compress record with
  | mk stored type =>
    simp only [writeEncoderData, BlobFileBuilder.encode, hdata, encodeSlice,
      BlobFileBuilder.append, WritableFile.append, hquiet _, BlobFileBuilder.ok, Option.isNone_none,
      ↓reduceIte, length_append]
    refine ⟨⟨rfl, hquiet, ?_, rfl, rfl, rfl, rfl, rfl, rfl⟩, trivial⟩
    exact append_assoc ..

theorem flushContexts_extends (hquiet : Quiet b.file) (hstatus : b.status = none) (xs : List Item) :
    Extends b (b.flushContexts o ((records xs).map BlobRecord.encodeTo) (xs.map Item.ctx)).1
      (encoded (o.compression b.compressionDict) (records xs)) (records xs).length ∧
    (b.flushContexts o ((records xs).map BlobRecord.encodeTo) (xs.map Item.ctx)).2 =
      place (o.compression b.compressionDict) b.file.bytes.length b.numEntries xs := by
  induction xs generalizing b with
  | nil =>
    refine ⟨⟨hstatus, hquiet, ?_, rfl, rfl, rfl, rfl, rfl, rfl⟩, rfl⟩
    exact (append_nil _).symm
  | cons x xs ih =>
    have hvalue := x.hasValue
    cases hrecord : x.record with
    | none =>
      rw [hrecord] at hvalue
      obtain ⟨hextends, hout⟩ := ih hquiet hstatus
      have hrecords : records (x :: xs) = records xs := by simp [records, hrecord]
      rw [hrecords, map_cons, flushContexts_value o _ _ hvalue, place, hrecord]
      exact ⟨hextends, by rw [hout]⟩
    | some r =>
      rw [hrecord] at hvalue
      obtain ⟨hwrite, hhandle⟩ := writeEncoderData_extends o hquiet r.encodeTo
      obtain ⟨hextends, hout⟩ := ih hwrite.quiet hwrite.status
      rw [hwrite.compressionDict] at hextends hout
      have hall := hwrite.trans hextends
      have hrecords : records (x :: xs) = r :: records xs := by simp [records, hrecord]
      rw [hrecords, map_cons, map_cons,
        flushContexts_record o _ _ _ hvalue, place, hrecord]
      refine ⟨?_, ?_⟩
      · rw [encoded_cons, length_cons, Nat.add_comm]
        exact hall
      · rw [hout, hhandle, hwrite.bytes, hwrite.numEntries, length_append]
        rfl

/-! ## What a builder has done -/

def headerOf (version : UInt32) : BlobFileHeader where
  version := version
  flags := if o.maxDictBytes > 0 then kHasUncompressionDictionary else 0

/-- A builder that has handed out contexts for some items, while others wait. -/
structure Builds (b : BlobFileBuilder) (out : List BlobRecordContext) (handed waiting : List Item) :
    Prop where
  status : b.status = none
  quiet : Quiet b.file
  bytes : b.file.bytes = (headerOf o b.version).encodeTo ++
    encoded (o.compression b.compressionDict) (records handed)
  numEntries : b.numEntries = (records handed).length
  cachedContexts : b.cachedContexts = waiting.map Item.ctx
  sampleRecords : b.sampleRecords = (records waiting).map BlobRecord.encodeTo
  version : b.version = kVersion2
  buffered : b.builderState = .buffered → handed = [] ∧ 0 < o.maxDictBytes
  plainDict : o.maxDictBytes = 0 → b.compressionDict = []
  unbuffered : b.builderState = .unbuffered → waiting = []
  out_eq : out = place (o.compression b.compressionDict) (headerOf o b.version).encodeTo.length 0
    handed

variable {o} {b : BlobFileBuilder} {out : List BlobRecordContext} {handed waiting : List Item}

/-- The fields that `Builds` speaks of. -/
theorem Builds.congr (h : Builds o b out handed waiting) {b' : BlobFileBuilder}
    (hstatus : b'.status = b.status) (hfile : b'.file = b.file) (hversion : b'.version = b.version)
    (hdict : b'.compressionDict = b.compressionDict) (hnum : b'.numEntries = b.numEntries)
    (hcached : b'.cachedContexts = b.cachedContexts) (hsamples : b'.sampleRecords = b.sampleRecords)
    (hstate : b'.builderState = b.builderState) : Builds o b' out handed waiting where
  status := hstatus.trans h.status
  quiet := by rw [hfile]; exact h.quiet
  bytes := by rw [hfile, hversion, hdict]; exact h.bytes
  numEntries := hnum.trans h.numEntries
  cachedContexts := hcached.trans h.cachedContexts
  sampleRecords := hsamples.trans h.sampleRecords
  version := hversion.trans h.version
  buffered := by rw [hstate]; exact h.buffered
  plainDict := by rw [hdict]; exact h.plainDict
  unbuffered := by rw [hstate]; exact h.unbuffered
  out_eq := by rw [hversion, hdict]; exact h.out_eq

theorem Builds.extendRange (h : Builds o b out handed waiting) (key : Bytes) :
    Builds o (b.extendRange o key) out handed waiting := by
  unfold BlobFileBuilder.extendRange
  dsimp only
  split <;> split <;> exact h.congr rfl rfl rfl rfl rfl rfl rfl rfl

theorem new_builds {file : WritableFile} (hquiet : Quiet file) (hempty : file.bytes = [])
    (hzstd : 0 < o.maxDictBytes → o.zstdTooOld = false) :
    Builds o (.new o file kVersion2) [] [] [] := by
  have hversion : validateVersion kVersion2 = none := by decide
  have hnew : BlobFileBuilder.new o file kVersion2 = writeHeader o
      { builderState := if o.maxDictBytes > 0 then .buffered else .unbuffered, file,
        version := kVersion2 } := by
    unfold BlobFileBuilder.new
    by_cases hdict : o.maxDictBytes > 0
    · simp [hversion, hdict, hzstd hdict]
    · simp [hversion, hdict]
  rw [hnew]
  have happend := append_extends (b := { builderState :=
    if o.maxDictBytes > 0 then .buffered else .unbuffered, file, version := kVersion2 }) hquiet
    (headerOf o kVersion2).encodeTo
  refine ⟨happend.status, happend.quiet, ?_, happend.numEntries, happend.cachedContexts,
    happend.sampleRecords, happend.version, fun hstate => ⟨rfl, ?_⟩, fun _ => happend.compressionDict,
    fun _ => rfl, rfl⟩
  · refine happend.bytes.trans ?_
    rw [hempty, nil_append]
    exact (append_nil _).symm
  · by_contra hdict
    have hbuffered := hstate.symm.trans happend.builderState
    rw [if_neg hdict] at hbuffered
    exact BuilderState.noConfusion hbuffered

theorem Builds.enterUnbuffered (h : Builds o b out handed waiting) (hstate : b.builderState = .buffered) :
    Builds o (b.enterUnbuffered o).1 (b.enterUnbuffered o).2 waiting [] := by
  obtain ⟨hhanded, hdict⟩ := h.buffered hstate
  have hbytes := h.bytes
  have hnum := h.numEntries
  rw [hhanded] at hbytes hnum
  have hflush := flushContexts_extends o (b := { b with
    compressionDict := o.trainDictionary b.sampleRecords o.maxDictBytes }) h.quiet h.status waiting
  rw [← h.sampleRecords, ← h.cachedContexts] at hflush
  obtain ⟨hextends, hout⟩ := hflush
  refine ⟨hextends.status, hextends.quiet, ?_, ?_, rfl, rfl, hextends.version.trans h.version,
    fun hbuffered => BuilderState.noConfusion hbuffered, fun hzero => absurd hzero hdict.ne', fun _ => rfl,
    ?_⟩
  · refine hextends.bytes.trans ?_
    change b.file.bytes ++ _ = (headerOf o (BlobFileBuilder.version _)).encodeTo ++
      encoded (o.compression (BlobFileBuilder.compressionDict _)) _
    rw [hbytes]
    change _ = (headerOf o (BlobFileBuilder.version
      (flushContexts o _ b.sampleRecords b.cachedContexts).1)).encodeTo ++
      encoded (o.compression (BlobFileBuilder.compressionDict
        (flushContexts o _ b.sampleRecords b.cachedContexts).1)) _
    rw [hextends.version, hextends.compressionDict]
    exact congrArg (· ++ _) (append_nil _)
  · refine hextends.numEntries.trans ?_
    change b.numEntries + _ = _
    rw [hnum]
    exact Nat.zero_add _
  · refine hout.trans ?_
    change place _ b.file.bytes.length b.numEntries waiting = place (o.compression
      (flushContexts o _ b.sampleRecords b.cachedContexts).1.compressionDict)
      (headerOf o (flushContexts o _ b.sampleRecords
        b.cachedContexts).1.version).encodeTo.length 0 waiting
    rw [hextends.version, hextends.compressionDict, hbytes, hnum]
    simp [records]

/-- Adding a record hands out the contexts of a first part of what waits. -/
theorem Builds.add (h : Builds o b out handed waiting) (r : BlobRecord) {ctx : BlobRecordContext}
    (hctx : ctx.hasValue = false) :
    ∃ new rest, waiting ++ [⟨ctx, some r, hctx⟩] = new ++ rest ∧
      Builds o (b.add o r ctx).1 (out ++ (b.add o r ctx).2) (handed ++ new) rest := by
  have hok : b.ok = true := Option.isNone_iff_eq_none.mpr h.status
  cases hstate : b.builderState with
  | unbuffered =>
    have hwaiting := h.unbuffered hstate
    obtain ⟨hwrite, hhandle⟩ := writeEncoderData_extends o h.quiet r.encodeTo
    refine ⟨[⟨ctx, some r, hctx⟩], [], by rw [hwaiting]; rfl, ?_⟩
    simp only [BlobFileBuilder.add, hok, hstate, ↓reduceIte]
    apply Builds.extendRange
    refine ⟨hwrite.status, hwrite.quiet, ?_, ?_, ?_, ?_, hwrite.version.trans h.version, ?_, ?_,
      fun _ => rfl, ?_⟩
    · rw [hwrite.bytes, hwrite.version, hwrite.compressionDict, h.bytes, records_append,
        encoded_append, append_assoc]
      simp [records, encodeRecord]
    · rw [hwrite.numEntries, h.numEntries, records_append, length_append]
      rfl
    · rw [hwrite.cachedContexts, h.cachedContexts, hwaiting]
    · rw [hwrite.sampleRecords, h.sampleRecords, hwaiting]
    · rw [hwrite.builderState, hstate]
      exact fun hbuffered => BuilderState.noConfusion hbuffered
    · rw [hwrite.compressionDict]
      exact h.plainDict
    · rw [hwrite.version, hwrite.compressionDict, place_append, ← h.out_eq, hhandle, h.bytes,
        h.numEntries, length_append, Nat.zero_add]
      rfl
  | buffered =>
    obtain ⟨hhanded, -⟩ := h.buffered hstate
    have hcached : Builds o { b with
        sampleRecords := b.sampleRecords ++ [r.encodeTo]
        sampleStrLen := b.sampleStrLen + r.encodeTo.length
        cachedContexts := b.cachedContexts ++ [ctx] } out handed
        (waiting ++ [⟨ctx, some r, hctx⟩]) := by
      refine ⟨h.status, h.quiet, h.bytes, h.numEntries, ?_, ?_, h.version, h.buffered, h.plainDict, ?_,
        h.out_eq⟩
      · rw [map_append, h.cachedContexts]
        rfl
      · rw [records_append, map_append, h.sampleRecords]
        rfl
      · intro hunbuffered
        rw [hstate] at hunbuffered
        cases hunbuffered
    rw [hstate] at hcached
    simp only [BlobFileBuilder.add, hok, hstate, ↓reduceIte]
    split
    · refine ⟨waiting ++ [⟨ctx, some r, hctx⟩], [], (append_nil _).symm, ?_⟩
      have hflush := hcached.enterUnbuffered rfl
      have hout : out = [] := by rw [h.out_eq, hhanded]; rfl
      rw [hhanded, hout, nil_append, nil_append]
      exact hflush.extendRange r.key
    · refine ⟨[], waiting ++ [⟨ctx, some r, hctx⟩], rfl, ?_⟩
      rw [append_nil, append_nil]
      exact hcached.extendRange r.key

/-! ## Finished files -/

/-- What `Finish` appends: the dictionary and its meta index, if there is one, and the
footer. -/
def closing (o : BuilderOptions) (offset : Nat) (dict : Bytes) : Bytes :=
  if o.maxDictBytes > 0 then
    let dictBlock := dict ++ blockTrailer dict
    let index := o.metaIndexBlock (some ⟨UInt64.ofNat offset, UInt64.ofNat dict.length⟩)
    let metaIndexHandle : BlockHandle :=
      ⟨UInt64.ofNat (offset + dictBlock.length), UInt64.ofNat index.length⟩
    dictBlock ++ (index ++ blockTrailer index) ++
      ({ metaIndexHandle } : BlobFileFooter).encodeTo
  else ({} : BlobFileFooter).encodeTo

theorem writeRawBlock_extends {b : BlobFileBuilder} (hquiet : Quiet b.file) (block : Bytes) :
    Extends b (b.writeRawBlock block).1 (block ++ blockTrailer block) 0 ∧
    (b.writeRawBlock block).2 =
      ⟨UInt64.ofNat b.file.bytes.length, UInt64.ofNat block.length⟩ := by
  have hblock := append_extends hquiet block
  rw [writeRawBlock]
  dsimp only
  rw [if_pos hblock.ok]
  exact ⟨hblock.trans (append_extends hblock.quiet _), rfl⟩

theorem writeFooter_extends {b : BlobFileBuilder} (hquiet : Quiet b.file) (handle : BlockHandle) :
    Extends b (b.writeFooter handle) ({ metaIndexHandle := handle } : BlobFileFooter).encodeTo 0 := by
  have hfooter := append_extends hquiet ({ metaIndexHandle := handle } : BlobFileFooter).encodeTo
  rw [writeFooter]
  dsimp only
  rw [if_pos hfooter.ok]
  exact ⟨hfooter.quiet _, hfooter.quiet, hfooter.bytes, hfooter.numEntries, hfooter.version,
    hfooter.compressionDict, hfooter.cachedContexts, hfooter.sampleRecords, hfooter.builderState⟩

/-- Closing a file whose contexts are all handed out. -/
theorem close_extends {b : BlobFileBuilder} (hquiet : Quiet b.file) :
    Extends b (if o.maxDictBytes > 0 then
        (b.writeMetaBlocks o).1.writeFooter (b.writeMetaBlocks o).2
      else b.writeFooter {}) (closing o b.file.bytes.length b.compressionDict) 0 := by
  unfold closing
  split
  · obtain ⟨hdict, hhandle⟩ := writeRawBlock_extends hquiet b.compressionDict
    obtain ⟨hindex, hmeta⟩ := writeRawBlock_extends hdict.quiet (o.metaIndexBlock
      (some ⟨UInt64.ofNat b.file.bytes.length, UInt64.ofNat b.compressionDict.length⟩))
    have hblocks : b.writeMetaBlocks o = (b.writeRawBlock b.compressionDict).1.writeRawBlock
        (o.metaIndexBlock (some ⟨UInt64.ofNat b.file.bytes.length,
          UInt64.ofNat b.compressionDict.length⟩)) := by
      rw [writeMetaBlocks]
      dsimp only
      rw [if_pos hdict.ok, hhandle]
    rw [hblocks, hmeta, hdict.bytes, length_append]
    exact (hdict.trans hindex).trans (writeFooter_extends hindex.quiet _)
  · exact writeFooter_extends hquiet {}

/-- A finished file holds the records of all items, behind its header, and all contexts
have come out. -/
structure Finished (o : BuilderOptions) (b : BlobFileBuilder) (out : List BlobRecordContext)
    (items : List Item) : Prop where
  status : b.status = none
  bytes : b.file.bytes = (headerOf o b.version).encodeTo ++
    encoded (o.compression b.compressionDict) (records items) ++
    closing o ((headerOf o b.version).encodeTo ++
      encoded (o.compression b.compressionDict) (records items)).length b.compressionDict
  numEntries : b.numEntries = (records items).length
  version : b.version = kVersion2
  plainDict : o.maxDictBytes = 0 → b.compressionDict = []
  out_eq : out = place (o.compression b.compressionDict) (headerOf o b.version).encodeTo.length 0
    items

theorem Builds.close (h : Builds o b out handed []) :
    Finished o (if o.maxDictBytes > 0 then (b.writeMetaBlocks o).1.writeFooter (b.writeMetaBlocks o).2
      else b.writeFooter {}) out handed := by
  have hclose := close_extends (o := o) h.quiet
  refine ⟨hclose.status, ?_, hclose.numEntries.trans h.numEntries, hclose.version.trans h.version, ?_, ?_⟩
  · rw [hclose.bytes, hclose.version, hclose.compressionDict, h.bytes]
  · rw [hclose.compressionDict]
    exact h.plainDict
  · rw [hclose.version, hclose.compressionDict]
    exact h.out_eq

theorem Builds.finish (h : Builds o b out handed waiting) :
    Finished o (b.finish o).1 (out ++ (b.finish o).2) (handed ++ waiting) := by
  have hok : b.ok = true := Option.isNone_iff_eq_none.mpr h.status
  rw [BlobFileBuilder.finish, if_pos hok]
  cases hstate : b.builderState with
  | unbuffered =>
    have hwaiting := h.unbuffered hstate
    subst hwaiting
    dsimp only
    rw [apply_ite Prod.fst, apply_ite Prod.snd, ite_self, append_nil, append_nil]
    exact h.close
  | buffered =>
    obtain ⟨hhanded, -⟩ := h.buffered hstate
    have hout : out = [] := by rw [h.out_eq, hhanded]; rfl
    dsimp only
    rw [apply_ite Prod.fst, apply_ite Prod.snd, ite_self, hhanded, hout, nil_append, nil_append]
    exact (h.enterUnbuffered hstate).close

end TitanGC.Storage.Placement
