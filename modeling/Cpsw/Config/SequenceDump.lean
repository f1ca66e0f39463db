import Cpsw.Config.Sequences
import Cpsw.Lib.Numeral
import Mathlib.Data.List.TakeWhile

namespace Cpsw.Config

open Path

variable {Y : YamlCpp} {R : EnumRegistry} {name : List Char} {key : String} {nodes : List Node}
variable {n node : Node} {item : Item} {items s : List Item} {seqs : List (List Item)}

section Items

theorem readPair_lt (h : readPair Y key n = .ok item) : item.2 < 2 ^ 64 := by
  obtain ⟨_, -, h⟩ := Lib.Run.bind_ok.mp h
  obtain ⟨entry, -, h⟩ := Lib.Run.bind_ok.mp h
  obtain ⟨value, -, h⟩ := Lib.Run.bind_ok.mp h
  obtain ⟨m, hm, h⟩ := Lib.Run.bind_ok.mp h
  cases h
  cases value with
  | scalar tag text =>
    rw [Node.asUInt64] at hm
    cases hd : Y.decode text with
    | some k =>
      rw [hd] at hm
      cases hm
      exact Y.decode_lt _ _ hd
    | none =>
      rw [hd] at hm
      cases hm
  | _ => cases hm

theorem readPair_writePair (hkey : key ≠ "value") (h : item.2 < 2 ^ 64) :
    readPair Y key (writePair Y key item) = .ok item := by
  have hentry : (writePair Y key item).mustRead key = .ok (.ofString item.1) := by
    simp [writePair, Node.mustRead, Node.lookup, Node.ofString, bind, Except.bind, pure, Except.pure]
  have hvalue : (writePair Y key item).mustRead "value" = .ok (.ofUInt64 Y item.2) := by
    simp [writePair, Node.mustRead, Node.lookup, Node.ofUInt64, hkey, bind, Except.bind, pure,
      Except.pure]
  rw [readPair, hentry, hvalue]
  simp [Node.ofString, Node.asString, Node.ofUInt64, Node.asUInt64, Y.decode_encode _ h, bind,
    Except.bind, pure, Except.pure]

/-- What has been read is written as it was. -/
theorem mapM_writePair (hkey : key ≠ "value") (h : ∀ item ∈ items, item.2 < 2 ^ 64) :
    (items.map (writePair Y key)).mapM (readPair Y key) = .ok items := by
  rw [mapM_ok_iff, List.forall₂_map_left_iff, List.forall₂_same]
  exact fun item hitem ↦ readPair_writePair hkey (h item hitem)

theorem described_lt (h : described Y nodes = .ok seqs) :
    ∀ s ∈ seqs, ∀ item ∈ s, item.2 < 2 ^ 64 := by
  unfold described at h
  split at h
  · exact mapM_forall (fun n s hs ↦ mapM_forall (fun _ _ ↦ readPair_lt) hs) h
  · cases hs : nodes.mapM (readPair Y "entry") with
    | error e =>
      rw [hs] at h
      cases h
    | ok s =>
      rw [hs] at h
      cases h
      exact List.forall_mem_singleton.mpr (mapM_forall (fun _ _ ↦ readPair_lt) hs)

end Items

section Enums

variable {e : CEnumImpl}

theorem cstr_cstr (s : List Char) : cstr (cstr s) = cstr s := by
  rw [cstr, cstr, List.takeWhile_idem]

/-- What the constructor of an enum leaves. -/
structure CEnumImpl.Valid (R : EnumRegistry) (e : CEnumImpl) : Prop where
  has : R.has e.xfrm = true
  name : ∀ item ∈ e.items, cstr item.1 = item.1
  value : ∀ item ∈ e.items, item.2 < 2 ^ 64

theorem valid_create (h : CEnumImpl.create Y R node = .ok e) : e.Valid R := by
  unfold CEnumImpl.create at h
  split at h
  · next hhas =>
    obtain ⟨items, hitems, h⟩ := Lib.Run.bind_ok.mp h
    cases h
    have hread : ∀ i item, (do
        let node_item ← node.index Y i
        let item ← readPair Y "name" node_item
        pure (cstr item.1, item.2)) = Except.ok item → cstr item.1 = item.1 ∧ item.2 < 2 ^ 64 := by
      intro i item hi
      obtain ⟨n, -, hi⟩ := Lib.Run.bind_ok.mp hi
      obtain ⟨pair, hpair, hi⟩ := Lib.Run.bind_ok.mp hi
      have hlt := readPair_lt hpair
      cases hi
      exact ⟨cstr_cstr _, hlt⟩
    have hall := mapM_forall hread hitems
    exact ⟨hhas, fun item hi ↦ (hall item hi).1, fun item hi ↦ (hall item hi).2⟩
  · cases h

theorem valid_default : defaultEnum.Valid R where
  has := R.has_default
  name := by decide
  value := by decide

theorem create_dumpYaml (he : e.Valid R) (hne : e.items ≠ []) :
    CEnumImpl.create Y R (e.dumpYaml Y) = .ok e := by
  rw [CEnumImpl.dumpYaml, if_neg hne, CEnumImpl.create]
  have hitems : ((List.range (Node.seq e.xfrm (e.items.map (writePair Y "name"))).size).mapM
      fun i ↦ do
        let node_item ← (Node.seq e.xfrm (e.items.map (writePair Y "name"))).index Y i
        let item ← readPair Y "name" node_item
        pure (cstr item.1, item.2)) = Except.ok e.items := by
    rw [mapM_ok_iff, List.forall₂_iff_get]
    simp only [Node.size, List.length_range, List.length_map, List.get_eq_getElem,
      List.getElem_range, true_and]
    intro i hi hi'
    have hmem := List.getElem_mem hi'
    have hread : readPair Y "name" (writePair Y "name" e.items[i]) = .ok e.items[i] :=
      readPair_writePair (by decide) (he.value _ hmem)
    simp [Node.index, hi', hread, he.name _ hmem, bind, Except.bind, pure, Except.pure]
  rw [if_pos (show R.has (Node.seq e.xfrm _).tag = true from he.has), hitems]
  rfl

end Enums

section Nodes

variable {entries : List (String × Node)} {value : Node} {c : CSequenceCommandImpl}

/-- A key that is not there yet comes last. -/
theorem writeNode_new (h : ∀ e ∈ entries, e.1 ≠ key) :
    writeNode key value entries = entries ++ [(key, value)] := by
  rw [writeNode, if_neg]
  simp only [List.any_eq_true, decide_eq_true_eq, not_exists, not_and]
  exact h

theorem base_ne {base : BaseNode} (hkey : key ∉ CEntryImpl.keys) :
    ∀ e ∈ base.entries, e.1 ≠ key := by
  rintro e he rfl
  exact hkey (base.keys e he)

theorem dump_entries (base : BaseNode) : c.dumpYamlPart Y base = .map noTag
    (base.entries ++ [("sequence", .seq noTag (dumpSequences Y c))] ++
      (c.enums.elim [] fun e ↦ [("enums", e.dumpYaml Y)])) := by
  have hsequence : ∀ e ∈ base.entries, e.1 ≠ "sequence" := base_ne (by decide)
  rw [CSequenceCommandImpl.dumpYamlPart, writeNode_new hsequence]
  cases c.enums with
  | none => simp
  | some e =>
    dsimp only
    rw [writeNode_new]
    · rfl
    · intro x hx
      obtain hx | hx := List.mem_append.mp hx
      · exact base_ne (by decide) x hx
      · rw [List.mem_singleton.mp hx]
        exact (by decide : "sequence" ≠ "enums")

theorem find_base {base : BaseNode} (hkey : key ∉ CEntryImpl.keys) :
    base.entries.find? (fun e ↦ e.1 = key) = none := by
  rw [List.find?_eq_none]
  intro e he heq
  exact base_ne hkey e he (of_decide_eq_true heq)

theorem lookup_sequence (base : BaseNode) : (c.dumpYamlPart Y base).lookup "sequence" =
    .ok (.seq noTag (dumpSequences Y c)) := by
  rw [dump_entries, Node.lookup, List.find?_append, List.find?_append, find_base (by decide)]
  rfl

theorem lookup_enums (base : BaseNode) : (c.dumpYamlPart Y base).lookup "enums" =
    .ok (c.enums.elim .undefined (·.dumpYaml Y)) := by
  rw [dump_entries, Node.lookup, List.find?_append, List.find?_append, find_base (by decide)]
  cases c.enums <;> rfl

/-- What the class above has written stays as it is. -/
theorem lookup_base (base : BaseNode) (hkey : key ∈ CEntryImpl.keys) :
    (c.dumpYamlPart Y base).lookup key = (Node.map noTag base.entries).lookup key := by
  have hsequence : "sequence" ≠ key := by
    rintro rfl
    revert hkey
    decide
  have henums : "enums" ≠ key := by
    rintro rfl
    revert hkey
    decide
  rw [dump_entries, Node.lookup, Node.lookup, List.find?_append, List.find?_append]
  cases c.enums <;> simp [hsequence, henums]

end Nodes

section Create

variable {c : CSequenceCommandImpl} {tag : String}

theorem boundaries_cons {α : Type} (k : ℕ) (ss : List (List α)) :
    ∃ ks, boundaries k ss = k :: ks := by
  cases ss with
  | nil => exact ⟨[], rfl⟩
  | cons s ss => exact ⟨_, rfl⟩

/-- The items of a sequence go under the node of this sequence. -/
theorem dumpRanges_boundaries {k : ℕ} : dumpRanges Y (boundaries k seqs) seqs.flatten =
    seqs.map fun s ↦ .seq noTag (s.map (writePair Y "entry")) := by
  induction seqs generalizing k with
  | nil => rfl
  | cons s seqs ih =>
    obtain ⟨ks, hks⟩ := boundaries_cons (k + s.length) seqs
    have hrest := ih (k := k + s.length)
    rw [hks] at hrest
    rw [boundaries, hks, dumpRanges, Nat.add_sub_cancel_left, List.flatten_cons, List.take_left,
      List.drop_left, hrest, List.map_cons]

/-- The enum of a command: there is one for each sequence, and it lacks only to several of them. -/
structure EnumsFit (R : EnumRegistry) (seqs : List (List Item)) (enums : Option CEnumImpl) :
    Prop where
  valid : ∀ e ∈ enums, e.Valid R ∧ e.items.length = seqs.length
  several : enums = none → seqs.length ≠ 1

theorem checkEnums_ok {enums : Option CEnumImpl} (henums : ∀ e ∈ enums, e.Valid R)
    (h : checkEnums name (.ofSequences name seqs) enums = .ok c) :
    c.toSequenceCommandImpl = .ofSequences name seqs ∧ EnumsFit R seqs c.enums := by
  cases enums with
  | some e =>
    rw [checkEnums] at h
    split_ifs at h with hlen
    cases h
    have hlen' : e.items.length = seqs.length := by
      simpa [SequenceCommandImpl.ofSequences] using hlen
    refine ⟨rfl, fun e' he' ↦ ?_, fun hnone ↦ ?_⟩
    · cases he'
      exact ⟨henums e rfl, hlen'⟩
    · cases hnone
  | none =>
    cases h
    have hindex : (SequenceCommandImpl.ofSequences name seqs).index.length = seqs.length + 1 :=
      boundaries_length
    refine ⟨rfl, fun e he ↦ ?_, fun hnone ↦ ?_⟩
    · dsimp only at he
      split_ifs at he with hone
      · cases he
        rw [hindex] at hone
        exact ⟨valid_default, (Nat.succ.inj hone).symm⟩
      · cases he
    · intro hone
      dsimp only at hnone
      rw [hindex, hone, if_pos (by decide)] at hnone
      cases hnone

theorem readEnums_valid {enums : Option CEnumImpl} (h : readEnums Y R node = .ok enums) :
    ∀ e ∈ enums, e.Valid R := by
  obtain ⟨enum_node, -, h⟩ := Lib.Run.bind_ok.mp h
  have hcreate : ∀ n, some <$> CEnumImpl.create Y R n = .ok enums → ∀ e ∈ enums, e.Valid R := by
    intro n hn e he
    cases hc : CEnumImpl.create Y R n with
    | error err =>
      rw [hc] at hn
      cases hn
    | ok e' =>
      rw [hc] at hn
      cases hn
      cases he
      exact valid_create hc
  cases enum_node with
  | undefined =>
    cases h
    intro e he
    cases he
  | _ => exact hcreate _ h

/-- What the constructor has accepted. -/
theorem create_ok (h : CSequenceCommandImpl.create Y R name node = .ok c) :
    ∃ tag nodes seqs, node.lookup "sequence" = .ok (.seq tag nodes) ∧ nodes ≠ [] ∧
      described Y nodes = .ok seqs ∧ c.toSequenceCommandImpl = .ofSequences name seqs ∧
      EnumsFit R seqs c.enums := by
  obtain ⟨seq_node, hseq, h⟩ := Lib.Run.bind_ok.mp h
  cases seq_node with
  | seq tag nodes =>
    obtain ⟨enums, henums, h⟩ := Lib.Run.bind_ok.mp h
    split_ifs at h with hne
    obtain ⟨c', hc', h⟩ := Lib.Run.bind_ok.mp h
    obtain ⟨seqs, hdesc, rfl⟩ := parse_ok hc' hne
    obtain ⟨hc, hfit⟩ := checkEnums_ok (readEnums_valid henums) h
    exact ⟨tag, nodes, seqs, hseq, hne, hdesc, hc, hfit⟩
  | _ => cases h

end Create

end Cpsw.Config
