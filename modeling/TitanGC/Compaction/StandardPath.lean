import TitanGC.Compaction.Merge

/-!
# The offload path against the standard path

Without write-backs `Preprocess` and `NextFromCache` ought to emit what
`NextFromInput` emits: the newest version of each user key, in key order. They
do so exactly when no key has an inline version below a newest version that is
a blob index.
-/

namespace TitanGC.Compaction.StandardPath

open Lib.ByteCoding List Format.Coding Iterator Merge

structure Row (K : Type) where
  userKey : K
  sequence : Nat
  entry : Entry
  deriving Repr, DecidableEq

variable {K : Type}

def Row.kv (r : Row K) : Kv K := r.entry.kv r.userKey r.sequence

def emitted (kv : Kv K) : K × ValueType × Bytes := (kv.key.userKey, kv.key.type, kv.value)

/-- Inline values and blob indexes without an old location. -/
def Entry.NoWriteBack : Entry → Prop
  | .value _ => True
  | .blobIndex b => b.oldFileNumber = 0

theorem absorb_noWriteBack {a e : Entry} (ha : Entry.NoWriteBack a) :
    a.absorb e = if a.type = .blobIndex ∧ e.type = .value then e else a := by
  cases a with
  | value v => simp [Entry.absorb, Entry.type]
  | blobIndex p =>
    cases e with
    | value v => simp [Entry.absorb, Entry.type]
    | blobIndex c =>
      have hp : p.oldFileNumber = 0 := ha
      simp [Entry.absorb, Entry.type, hp]

/-- `x` is the newest version of its key in the input. -/
def Newest (input : List (Row K)) (x : Row K) : Prop :=
  ∀ z ∈ input, z.userKey = x.userKey → z.sequence ≤ x.sequence

def NoInlineUnderIndex (input : List (Row K)) : Prop :=
  ∀ x ∈ input, ∀ y ∈ input, y.userKey = x.userKey → Newest input x →
    x.entry.type = .blobIndex → y.entry.type ≠ .value

theorem newest_cons_of_lt {s x : Row K} {rest : List (Row K)}
    (hs : s.userKey = x.userKey → s.sequence ≤ x.sequence) (hx : Newest rest x) :
    Newest (s :: rest) x := by
  intro z hz hk
  rcases mem_cons.mp hz with rfl | hz
  · exact hs hk
  · exact hx z hz hk

theorem newest_tail {s x : Row K} {rest : List (Row K)} (hx : Newest (s :: rest) x) :
    Newest rest x := fun z hz => hx z (mem_cons_of_mem _ hz)

variable [LinearOrder K]

/-- The order of internal keys: user keys ascending, sequence numbers descending. -/
def RowLt (a b : Row K) : Prop :=
  a.userKey < b.userKey ∨ (a.userKey = b.userKey ∧ b.sequence < a.sequence)

/-- No entry of the current key that is still to come is inline below `newest`,
if that is a blob index; and so on for the keys that follow. -/
def NoInlineBelow : K → Entry → List (Row K) → Prop
  | _, _, [] => True
  | k, newest, r :: rest =>
    if r.userKey = k then
      (newest.type = .blobIndex → r.entry.type ≠ .value) ∧ NoInlineBelow k newest rest
    else NoInlineBelow r.userKey r.entry rest

variable (rest : List (Row K))

/-- The back of the queue is the newest version of its key, unless an older inline
value has already replaced it; it then stays inline to the end of the key. -/
theorem collapse_eq_standard_iff :
    ∀ (k : K) (l : Nat) (a newest : Entry),
      Entry.NoWriteBack a → (∀ r ∈ rest, Entry.NoWriteBack r.entry) →
      (a = newest ∨ (newest.type = .blobIndex ∧ a.type = .value)) →
      ((collapse (a.kv k l) (rest.map Row.kv)).map emitted =
          (k, newest.type, newest.bytes) ::
            (standardFrom (some (k, kMaxSequenceNumber)) (rest.map Row.kv)).map emitted ↔
        a = newest ∧ NoInlineBelow k newest rest) := by
  induction rest with
  | nil =>
    intro k l a newest _ _ hrel
    rcases hrel with rfl | ⟨hb, hv⟩
    · simp [collapse, standardFrom, NoInlineBelow, emitted, Entry.kv]
    · have hne : a ≠ newest := by
        rintro rfl
        rw [hb] at hv
        cases hv
      simp [collapse, standardFrom, NoInlineBelow, emitted, Entry.kv, hb, hv, hne]
  | cons r rest ih =>
    intro k l a newest ha hall hrel
    have hr : Entry.NoWriteBack r.entry := hall r (by simp)
    have hrest : ∀ x ∈ rest, Entry.NoWriteBack x.entry := fun x hx => hall x (by simp [hx])
    by_cases hk : r.userKey = k
    · obtain ⟨l', hl'⟩ := absorb_kv k l r.sequence a r.entry
      have hkv : r.kv = r.entry.kv k r.sequence := by rw [Row.kv, hk]
      have hkey : r.kv.key.userKey = k := hk
      rw [map_cons, standardFrom_same hkey, collapse, if_pos (by exact hkey), hkv, hl',
        NoInlineBelow, if_pos hk]
      rw [absorb_noWriteBack ha]
      by_cases hswap : a.type = .blobIndex ∧ r.entry.type = .value
      · rw [if_pos hswap]
        have hnew : a = newest := by
          rcases hrel with h | ⟨-, hv⟩
          · exact h
          · rw [hswap.1] at hv; cases hv
        subst hnew
        rw [ih k l' r.entry a hr hrest (.inr hswap)]
        have hne : r.entry ≠ a := by
          rintro he
          rw [he, hswap.1] at hswap
          cases hswap.2
        simp [hne, hswap.1, hswap.2]
      · rw [if_neg hswap, ih k l' a newest ha hrest hrel]
        refine and_congr_right fun hnew => ?_
        subst hnew
        simp only [iff_and_self]
        exact fun _ hb hv => hswap ⟨hb, hv⟩
    · have hkey : r.kv.key.userKey ≠ k := hk
      have hne : ¬ r.kv.key.userKey = (a.kv k l).key.userKey := hk
      rw [map_cons, standardFrom_new hkey, collapse, if_neg hne, NoInlineBelow, if_neg hk]
      have htail := ih r.userKey r.sequence r.entry r.entry hr hrest (.inl rfl)
      simp only [true_and] at htail
      rw [map_cons, map_cons, List.cons.injEq]
      refine and_congr ?_ htail
      rcases hrel with rfl | ⟨hb, hv⟩
      · simp [emitted, Entry.kv]
      · have hne' : a ≠ newest := by
          rintro rfl
          rw [hb] at hv
          cases hv
        simp [emitted, Entry.kv, hb, hv, hne']

/-- Below the first row of a sorted input, rows of its key are older. -/
theorem sequence_lt_of_sorted {r z : Row K} {rest : List (Row K)}
    (hs : (r :: rest).Pairwise RowLt) (hz : z ∈ rest) (hk : z.userKey = r.userKey) :
    z.sequence < r.sequence := by
  rcases (pairwise_cons.mp hs).1 z hz with h | h
  · exact absurd hk h.ne'
  · exact h.2

theorem userKey_le_of_sorted {r z : Row K} {rest : List (Row K)}
    (hs : (r :: rest).Pairwise RowLt) (hz : z ∈ rest) : r.userKey ≤ z.userKey := by
  rcases (pairwise_cons.mp hs).1 z hz with h | h
  · exact h.le
  · exact h.1.le

theorem newest_head {r : Row K} {rest : List (Row K)} (hs : (r :: rest).Pairwise RowLt) :
    Newest (r :: rest) r := by
  intro z hz hk
  rcases mem_cons.mp hz with rfl | hz
  · exact le_rfl
  · exact (sequence_lt_of_sorted hs hz hk).le

theorem noInlineBelow_iff :
    ∀ r : Row K, (r :: rest).Pairwise RowLt →
      (NoInlineBelow r.userKey r.entry rest ↔ NoInlineUnderIndex (r :: rest)) := by
  induction rest with
  | nil =>
    intro r _
    refine ⟨fun _ x hx y hy _ _ hb hv => ?_, fun _ => trivial⟩
    rw [mem_singleton] at hx hy
    rw [hy, ← hx, hb] at hv
    cases hv
  | cons s rest ih =>
    intro r hs
    have hsr : (r :: rest).Pairwise RowLt :=
      hs.sublist (List.Sublist.cons_cons r (sublist_cons_self s rest))
    have hss : (s :: rest).Pairwise RowLt := (pairwise_cons.mp hs).2
    rw [NoInlineBelow]
    split
    · rename_i hk
      have hold : s.sequence < r.sequence := sequence_lt_of_sorted hs (by simp) hk
      rw [ih r hsr]
      constructor
      · rintro ⟨hfirst, hrest⟩ x hx y hy hyx hnew hb
        -- the newest row of a key is never `s`, which lies below `r`
        have hxs : x ∈ r :: rest := by
          rcases mem_cons.mp hx with rfl | hx
          · simp
          · rcases mem_cons.mp hx with rfl | hx
            · have := hnew r (by simp) hk.symm
              omega
            · simp [hx]
        have hnew' : Newest (r :: rest) x := fun z hz =>
          hnew z (by rcases mem_cons.mp hz with rfl | hz <;> simp_all)
        rcases mem_cons.mp hy with rfl | hy
        · exact hrest x hxs y (by simp) hyx hnew' hb
        · rcases mem_cons.mp hy with rfl | hy
          · rcases mem_cons.mp hxs with rfl | hxr
            · exact hfirst hb
            · have hle := hnew r (by simp) (hk.symm.trans hyx)
              have := sequence_lt_of_sorted hsr hxr (hyx.symm.trans hk)
              omega
          · exact hrest x hxs y (by simp [hy]) hyx hnew' hb
      · intro h
        refine ⟨fun hb => h r (by simp) s (by simp) hk (newest_head hs) hb, ?_⟩
        intro x hx y hy hyx hnew hb
        refine h x (by rcases mem_cons.mp hx with rfl | hx <;> simp_all)
          y (by rcases mem_cons.mp hy with rfl | hy <;> simp_all) hyx ?_ hb
        intro z hz hzx
        rcases mem_cons.mp hz with rfl | hz
        · exact hnew z (by simp) hzx
        · rcases mem_cons.mp hz with rfl | hz
          · exact hold.le.trans (hnew r (by simp) (hk.symm.trans hzx))
          · exact hnew z (by simp [hz]) hzx
    · rename_i hk
      have hlt : r.userKey < s.userKey :=
        lt_of_le_of_ne (userKey_le_of_sorted hs (by simp)) (Ne.symm hk)
      have hgt : ∀ z ∈ s :: rest, r.userKey ≠ z.userKey := by
        intro z hz
        rcases mem_cons.mp hz with rfl | hz
        · exact hlt.ne
        · exact (hlt.trans_le (userKey_le_of_sorted hss hz)).ne
      rw [ih s hss]
      constructor
      · intro h x hx y hy hyx hnew hb
        rcases mem_cons.mp hx with rfl | hx'
        · rcases mem_cons.mp hy with rfl | hy'
          · rw [hb]; simp
          · exact absurd hyx.symm (hgt y hy')
        · rcases mem_cons.mp hy with rfl | hy'
          · exact absurd hyx (hgt x hx')
          · exact h x hx' y hy' hyx (newest_tail hnew) hb
      · intro h x hx y hy hyx hnew hb
        exact h x (by simp [hx]) y (by simp [hy]) hyx
          (newest_cons_of_lt (fun he => absurd he (hgt x hx)) hnew) hb

/-! ## What the standard path emits -/

/-- A version of a new user key is emitted in front of what comes after it. -/
theorem emitted_cons {r : Row K} {rest : List (Row K)} (hs : (r :: rest).Pairwise RowLt) {out : List (Kv K)}
    (hmem : ∀ kv, kv ∈ out ↔ ∃ x ∈ rest, kv = x.kv ∧ r.userKey < x.userKey ∧ Newest rest x)
    (hsort : (out.map (·.key.userKey)).Pairwise (· < ·)) :
    (∀ kv, kv ∈ r.kv :: out ↔ ∃ x ∈ r :: rest, kv = x.kv ∧ Newest (r :: rest) x) ∧
      ((r.kv :: out).map (·.key.userKey)).Pairwise (· < ·) := by
  refine ⟨fun kv => ?_, ?_⟩
  · rw [mem_cons]
    constructor
    · rintro (rfl | hin)
      · exact ⟨r, by simp, rfl, newest_head hs⟩
      · obtain ⟨x, hx, rfl, hrx, hnew⟩ := (hmem kv).mp hin
        exact ⟨x, by simp [hx], rfl, newest_cons_of_lt (fun he => absurd he hrx.ne) hnew⟩
    · rintro ⟨x, hx, rfl, hnew⟩
      rcases mem_cons.mp hx with rfl | hx
      · exact .inl rfl
      · refine .inr ((hmem _).mpr ⟨x, hx, rfl, ?_, newest_tail hnew⟩)
        refine lt_of_le_of_ne (userKey_le_of_sorted hs hx) fun he => ?_
        have h1 := hnew r (by simp) he
        have h2 := sequence_lt_of_sorted hs hx he.symm
        omega
  · rw [map_cons, pairwise_cons]
    refine ⟨fun k' hk' => ?_, hsort⟩
    obtain ⟨kv, hkv, rfl⟩ := mem_map.mp hk'
    obtain ⟨x, -, rfl, hrx, -⟩ := (hmem kv).mp hkv
    exact hrx

theorem standardFrom_spec :
    ∀ k : K, rest.Pairwise RowLt → (∀ r ∈ rest, k ≤ r.userKey) →
      (∀ kv, kv ∈ standardFrom (some (k, kMaxSequenceNumber)) (rest.map Row.kv) ↔
        ∃ x ∈ rest, kv = x.kv ∧ k < x.userKey ∧ Newest rest x) ∧
      ((standardFrom (some (k, kMaxSequenceNumber)) (rest.map Row.kv)).map (·.key.userKey)).Pairwise
        (· < ·) := by
  induction rest with
  | nil =>
    intro k _ _
    simp [standardFrom]
  | cons r rest ih =>
    intro k hs hle
    have hss := (pairwise_cons.mp hs).2
    by_cases hk : r.userKey = k
    · obtain ⟨hmem, hsort⟩ := ih k hss fun x hx => hle x (by simp [hx])
      have hkey : r.kv.key.userKey = k := hk
      rw [map_cons, standardFrom_same hkey]
      refine ⟨fun kv => (hmem kv).trans ⟨?_, ?_⟩, hsort⟩
      · rintro ⟨x, hx, rfl, hlt, hnew⟩
        exact ⟨x, by simp [hx], rfl, hlt,
          newest_cons_of_lt (fun he => absurd (hk.symm.trans he) hlt.ne) hnew⟩
      · rintro ⟨x, hx, rfl, hlt, hnew⟩
        rcases mem_cons.mp hx with rfl | hx
        · exact absurd hk hlt.ne'
        · exact ⟨x, hx, rfl, hlt, newest_tail hnew⟩
    · have hkey : r.kv.key.userKey ≠ k := hk
      have hlt : k < r.userKey := lt_of_le_of_ne (hle r (by simp)) (Ne.symm hk)
      obtain ⟨hmem, hsort⟩ := ih r.userKey hss fun x hx => userKey_le_of_sorted hs hx
      rw [map_cons, standardFrom_new hkey]
      obtain ⟨hmem', hsort'⟩ := emitted_cons hs hmem hsort
      refine ⟨fun kv => (hmem' kv).trans ⟨?_, ?_⟩, hsort'⟩
      · rintro ⟨x, hx, rfl, hnew⟩
        refine ⟨x, hx, rfl, ?_, hnew⟩
        rcases mem_cons.mp hx with rfl | hx
        · exact hlt
        · exact hlt.trans_le (userKey_le_of_sorted hs hx)
      · rintro ⟨x, hx, rfl, -, hnew⟩
        exact ⟨x, hx, rfl, hnew⟩

/-- The standard path emits exactly the newest version of each user key, keys in
order and none repeated. -/
theorem standardOutput_spec {input : List (Row K)} (hs : input.Pairwise RowLt) :
    (∀ kv, kv ∈ standardOutput (input.map Row.kv) ↔ ∃ x ∈ input, kv = x.kv ∧ Newest input x) ∧
    ((standardOutput (input.map Row.kv)).map (·.key.userKey)).Pairwise (· < ·) := by
  cases input with
  | nil => simp [standardOutput, standardFrom]
  | cons r rest =>
    obtain ⟨hmem, hsort⟩ := standardFrom_spec rest r.userKey (pairwise_cons.mp hs).2
      fun x hx => userKey_le_of_sorted hs hx
    have hcons : standardOutput ((r :: rest).map Row.kv) =
        r.kv :: standardFrom (some (r.userKey, kMaxSequenceNumber)) (rest.map Row.kv) :=
      standardOutput_cons r.kv (rest.map Row.kv)
    rw [hcons]
    exact emitted_cons hs hmem hsort

/-- On an input of inline values and plain blob indexes the offload path emits what
the standard path emits, the newest version of each user key in key order, exactly
when no key has an inline version below a newest version that is a blob index. -/
theorem offload_eq_standard_iff (input : List (Row K)) (hs : input.Pairwise RowLt)
    (hp : ∀ r ∈ input, Entry.NoWriteBack r.entry) :
    ((offloadOutput (input.map Row.kv)).map emitted
        = (standardOutput (input.map Row.kv)).map emitted ↔ NoInlineUnderIndex input) ∧
    (∀ kv, kv ∈ standardOutput (input.map Row.kv) ↔ ∃ x ∈ input, kv = x.kv ∧ Newest input x) ∧
    ((standardOutput (input.map Row.kv)).map (·.key.userKey)).Pairwise (· < ·) := by
  refine ⟨?_, standardOutput_spec hs⟩
  cases input with
  | nil => simp [offloadOutput_eq, preprocess, standardOutput, standardFrom, NoInlineUnderIndex]
  | cons r rest =>
    have h := collapse_eq_standard_iff rest r.userKey r.sequence r.entry r.entry
      (hp r (by simp)) (fun x hx => hp x (by simp [hx])) (.inl rfl)
    rw [offloadOutput_eq, map_cons, preprocess_cons, standardOutput_cons,
      ← noInlineBelow_iff rest r hs]
    simp only [true_and] at h
    exact h

/-- A large value over a small one of the same key: the offload path emits the
overwritten small value, the standard path the large one. -/
theorem offload_emits_overwritten :
    let input : List (Row Nat) :=
      [⟨1, 2, .blobIndex { fileNumber := 5, blobHandle := ⟨12, 30, 0⟩ }⟩, ⟨1, 1, .value [7]⟩]
    input.Pairwise RowLt ∧ (∀ r ∈ input, Entry.NoWriteBack r.entry) ∧
    (offloadOutput (input.map Row.kv)).map emitted = [(1, .value, [7])] ∧
    (standardOutput (input.map Row.kv)).map emitted = [(1, .blobIndex, [1, 5, 12, 30, 0])] := by
  refine ⟨by simp [RowLt], by simp [Entry.NoWriteBack], by decide, by decide⟩

/-- Small over large is emitted alike by both paths. -/
theorem offload_eq_standard_small_over_large :
    let input : List (Row Nat) :=
      [⟨1, 2, .value [7]⟩, ⟨1, 1, .blobIndex { fileNumber := 5, blobHandle := ⟨12, 30, 0⟩ }⟩]
    (offloadOutput (input.map Row.kv)).map emitted
      = (standardOutput (input.map Row.kv)).map emitted := by
  intro input
  refine (offload_eq_standard_iff input (by simp [input, RowLt])
    (by simp [input, Entry.NoWriteBack])).1.mpr ?_
  intro x hx y hy _ hnew hb
  simp only [input, mem_cons, not_mem_nil, or_false] at hx
  rcases hx with rfl | rfl
  · cases hb
  · have := hnew ⟨1, 2, .value [7]⟩ (by simp [input]) rfl
    simp at this

end TitanGC.Compaction.StandardPath
