import Cpsw.Config.SequenceDump

namespace Cpsw.Config

open Path

section RoundTrip

variable {Y : YamlCpp} {R : EnumRegistry} {name : List Char} {c : CSequenceCommandImpl}
variable {s : List Item} {seqs : List (List Item)} {base : BaseNode}

theorem readEnums_dump (hne : seqs ≠ []) (hfit : EnumsFit R seqs c.enums) :
    readEnums Y R (c.dumpYamlPart Y base) = .ok c.enums := by
  rw [readEnums, lookup_enums]
  cases he : c.enums with
  | none => rfl
  | some e =>
    obtain ⟨hvalid, hlen⟩ := hfit.valid e he
    have hitems : e.items ≠ [] := by
      intro hnil
      rw [hnil] at hlen
      exact hne (List.length_eq_zero_iff.mp hlen.symm)
    have hcreate := create_dumpYaml (Y := Y) hvalid hitems
    rw [CEnumImpl.dumpYaml, if_neg hitems] at hcreate
    simp only [Option.elim, CEnumImpl.dumpYaml, if_neg hitems]
    change (some <$> CEnumImpl.create Y R _) = _
    rw [hcreate]
    rfl

theorem checkEnums_dump (hc : c.toSequenceCommandImpl = .ofSequences name seqs)
    (hfit : EnumsFit R seqs c.enums) :
    checkEnums name (.ofSequences name seqs) c.enums = .ok c := by
  have hindex : (SequenceCommandImpl.ofSequences name seqs).index.length = seqs.length + 1 :=
    boundaries_length
  have hself : (⟨.ofSequences name seqs, c.enums⟩ : CSequenceCommandImpl) = c := by rw [← hc]
  cases he : c.enums with
  | some e =>
    obtain ⟨-, hlen⟩ := hfit.valid e he
    rw [checkEnums, if_neg (by rw [hindex, hlen]; simp), ← he, hself]
    rfl
  | none =>
    have hone := hfit.several he
    rw [checkEnums, if_neg (by rw [hindex, SINGLE_SEQ]; omega), ← he, hself]
    rfl

theorem dumpSequences_single (hc : c.toSequenceCommandImpl = .ofSequences name [s]) :
    dumpSequences Y c = s.map (writePair Y "entry") := by
  rw [dumpSequences, hc, if_neg (by simp [SequenceCommandImpl.ofSequences, SINGLE_SEQ])]
  simp [SequenceCommandImpl.ofSequences]

theorem dumpSequences_several (hc : c.toSequenceCommandImpl = .ofSequences name seqs)
    (hlen : 2 ≤ seqs.length) :
    dumpSequences Y c = seqs.map fun s ↦ .seq noTag (s.map (writePair Y "entry")) := by
  have hindex : (SequenceCommandImpl.ofSequences name seqs).index.length = seqs.length + 1 :=
    boundaries_length
  rw [dumpSequences, hc, if_pos (by rw [hindex, SINGLE_SEQ]; omega)]
  exact dumpRanges_boundaries

/-- A single sequence is read where its first item is not a list. -/
theorem parse_single (hlt : ∀ item ∈ s, item.2 < 2 ^ 64) (hne : s ≠ []) :
    parseSequences Y (s.map (writePair Y "entry")) 0 (s.map (writePair Y "entry"))
      (.ofSequences name []) = .ok (.ofSequences name [s]) := by
  have hread : parseItems Y (s.map (writePair Y "entry")) (.ofSequences name []) =
      .ok (.ofSequences name [s]) :=
    parseItems_eq (mapM_writePair (by decide) hlt)
  cases s with
  | nil => exact absurd rfl hne
  | cons item s => exact hread

theorem parse_several (hlt : ∀ s ∈ seqs, ∀ item ∈ s, item.2 < 2 ^ 64) (all : List Node) :
    parseSequences Y all 0 (seqs.map fun s ↦ .seq noTag (s.map (writePair Y "entry")))
      (.ofSequences name []) = .ok (.ofSequences name seqs) := by
  have hall : (seqs.map fun s ↦ Node.seq noTag (s.map (writePair Y "entry"))).all
      Node.isSequence = true := by simp [Node.isSequence]
  refine parseSequences_eq hall ?_
  rw [mapM_ok_iff, List.forall₂_map_left_iff, List.forall₂_same]
  exact fun s hs ↦ mapM_writePair (by decide) (hlt s hs)

theorem parse_dump (hc : c.toSequenceCommandImpl = .ofSequences name seqs)
    (hlt : ∀ s ∈ seqs, ∀ item ∈ s, item.2 < 2 ^ 64) (hne : seqs ≠ []) (hempty : seqs ≠ [[]]) :
    parseSequences Y (dumpSequences Y c) 0 (dumpSequences Y c) (.ofSequences name []) =
      .ok (.ofSequences name seqs) := by
  match seqs with
  | [] => exact absurd rfl hne
  | [s] =>
    have hs : s ≠ [] := by
      rintro rfl
      exact hempty rfl
    rw [dumpSequences_single hc]
    exact parse_single (hlt s (List.mem_singleton_self s)) hs
  | s :: t :: seqs =>
    rw [dumpSequences_several hc (by simp)]
    exact parse_several hlt _

theorem dumpSequences_ne_nil (hc : c.toSequenceCommandImpl = .ofSequences name seqs)
    (hne : seqs ≠ []) (hempty : seqs ≠ [[]]) : dumpSequences Y c ≠ [] := by
  match seqs with
  | [] => exact absurd rfl hne
  | [s] =>
    rw [dumpSequences_single hc, Ne, List.map_eq_nil_iff]
    rintro rfl
    exact hempty rfl
  | s :: t :: seqs =>
    rw [dumpSequences_several hc (by simp)]
    exact List.cons_ne_nil _ _

/-- The command comes back from its dump. -/
theorem create_dump (hc : c.toSequenceCommandImpl = .ofSequences name seqs)
    (hfit : EnumsFit R seqs c.enums) (hlt : ∀ s ∈ seqs, ∀ item ∈ s, item.2 < 2 ^ 64)
    (hne : seqs ≠ []) (hempty : seqs ≠ [[]]) :
    CSequenceCommandImpl.create Y R name (c.dumpYamlPart Y base) = .ok c := by
  have hparse := parse_dump (Y := Y) hc hlt hne hempty
  have hcheck := checkEnums_dump hc hfit
  rw [CSequenceCommandImpl.create, lookup_sequence, readEnums_dump hne hfit]
  simp only [bind, Except.bind, if_neg (dumpSequences_ne_nil hc hne hempty)]
  change (parseSequences Y (dumpSequences Y c) 0 (dumpSequences Y c) (.ofSequences name [])).bind
    (fun c' ↦ checkEnums name c' c.enums) = .ok c
  rw [hparse]
  exact hcheck

/-- One empty sequence is dumped as no sequence at all, which is refused. -/
theorem create_dump_empty (hc : c.toSequenceCommandImpl = .ofSequences name [[]])
    (hfit : EnumsFit R [[]] c.enums) :
    CSequenceCommandImpl.create Y R name (c.dumpYamlPart Y base) =
      .error ⟨.configuration, name ++ ": sequence is empty".toList⟩ := by
  rw [CSequenceCommandImpl.create, lookup_sequence, dumpSequences_single hc,
    readEnums_dump (List.cons_ne_nil _ _) hfit]
  rfl

end RoundTrip

section Execute

variable {Ent Addr σ : Type} (H : Hierarchy Ent Addr) (I : Interfaces Ent Addr σ)

/-- A number that is no sequence's is refused before anything is done. -/
structure Performs (c : SequenceCommandImpl) (seqs : List (List Item))
    (parent : PathImpl Ent Addr) : Prop where
  valid : ∀ k (hk : k < seqs.length),
    executeCommand H I c parent k = seqs[k].forM (executeItem H I parent)
  invalid : seqs.length ≠ 1 → ∀ arg : ℤ, arg < 0 ∨ (seqs.length : ℤ) ≤ arg →
    executeCommand H I c parent arg = throw ⟨.invalidArg, "CSequenceCommandImpl: ".toList ++
      parent.toString H ++ ['/'] ++ c.name ++ " - integer arg out of range".toList⟩
  single : ∀ s, seqs = [s] → ∀ arg : ℤ,
    executeCommand H I c parent arg = s.forM (executeItem H I parent)

variable {H I} {name : List Char} {seqs : List (List Item)} {parent : PathImpl Ent Addr}

theorem Partitions.execute {c : SequenceCommandImpl} (h : Partitions c seqs) {k : ℕ} {arg : ℤ}
    (harg : (if c.index.length - 1 = 1 then 0 else arg) = k) (hk : k < seqs.length) :
    executeCommand H I c parent arg = seqs[k].forM (executeItem H I parent) := by
  have hlen := h.length
  rw [executeCommand]
  dsimp only
  rw [harg, if_neg (by omega), Int.toNat_natCast, (h.range k hk).2]

theorem Partitions.performs {c : SequenceCommandImpl} (h : Partitions c seqs) :
    Performs H I c seqs parent where
  valid k hk := by
    refine h.execute ?_ hk
    have hlen := h.length
    split_ifs with hone
    · have hk0 : k = 0 := by omega
      rw [hk0, Nat.cast_zero]
    · rfl
  invalid hne arg harg := by
    have hlen := h.length
    have hown : (if c.index.length - 1 = 1 then 0 else arg) = arg := if_neg (by omega)
    rw [executeCommand]
    dsimp only
    rw [hown, if_pos (by omega)]
  single s hs arg := by
    subst hs
    have hlen : c.index.length = 2 := h.length
    exact h.execute (k := 0) (if_pos (by rw [hlen])) Nat.one_pos

end Execute

section Law

variable {Y : YamlCpp} {R : EnumRegistry} {name : List Char} {node : Node} {nodes : List Node}
variable {seqs : List (List Item)} {c : CSequenceCommandImpl}

theorem described_ne_nil (hne : nodes ≠ []) (h : described Y nodes = .ok seqs) : seqs ≠ [] := by
  rintro rfl
  unfold described at h
  split at h
  · rw [mapM_ok_iff, List.forall₂_nil_right_iff] at h
    exact hne h
  · obtain ⟨s, -, h⟩ := Lib.Run.bind_ok.mp ((bind_pure_comp _ _).trans h)
    cases h

/-- One empty sequence is described by a list that holds an empty list. -/
theorem described_empty (hne : nodes ≠ []) (h : described Y nodes = .ok seqs) :
    seqs = [[]] ↔ ∃ tag, nodes = [.seq tag []] := by
  constructor
  · rintro rfl
    unfold described at h
    split at h
    · next hall =>
      rw [mapM_ok_iff, List.forall₂_cons_right_iff] at h
      obtain ⟨n, rest, hn, hrest, rfl⟩ := h
      rw [List.forall₂_nil_right_iff] at hrest
      subst hrest
      cases n with
      | seq tag items =>
        have hitems : items.mapM (readPair Y "entry") = .ok [] := hn
        rw [mapM_ok_iff, List.forall₂_nil_right_iff] at hitems
        exact ⟨tag, by rw [hitems]⟩
      | _ => cases hall
    · obtain ⟨s, hs, h⟩ := Lib.Run.bind_ok.mp ((bind_pure_comp _ _).trans h)
      cases h
      rw [mapM_ok_iff, List.forall₂_nil_right_iff] at hs
      exact absurd hs hne
  · rintro ⟨tag, rfl⟩
    exact (Except.ok.inj h).symm

variable (Y R) in
/-- A command that has been read stands for the sequences of its node, by its index, by its dump
and by what it does. -/
def SequenceLaw (name : List Char) (node : Node) (c : CSequenceCommandImpl) : Prop :=
  ∃ tag nodes seqs, node.lookup "sequence" = .ok (.seq tag nodes) ∧
    described Y nodes = .ok seqs ∧ Partitions c.toSequenceCommandImpl seqs ∧
    (∀ base, CSequenceCommandImpl.create Y R name (c.dumpYamlPart Y base) = .ok c) ∧
    ∀ (Ent Addr σ : Type) (H : Hierarchy Ent Addr) (I : Interfaces Ent Addr σ) parent,
      Performs H I c.toSequenceCommandImpl seqs parent

theorem not_law_of_empty {tag tag' : String} (h : CSequenceCommandImpl.create Y R name node = .ok c)
    (hempty : node.lookup "sequence" = .ok (.seq tag [.seq tag' []])) :
    ¬SequenceLaw Y R name node c := by
  rintro ⟨-, -, -, -, -, -, hdump, -⟩
  obtain ⟨_, nodes, seqs, hseq, hnodes, hdesc, hc, hfit⟩ := create_ok h
  rw [hempty] at hseq
  cases hseq
  rw [(described_empty hnodes hdesc).mpr ⟨tag', rfl⟩] at hc hfit
  have hfail : CSequenceCommandImpl.create Y R name (c.dumpYamlPart Y ⟨[], by simp⟩) =
      .error ⟨.configuration, name ++ ": sequence is empty".toList⟩ := create_dump_empty hc hfit
  rw [hdump] at hfail
  cases hfail

theorem sequence_law_iff (h : CSequenceCommandImpl.create Y R name node = .ok c) :
    SequenceLaw Y R name node c ↔
      ∀ tag tag', node.lookup "sequence" ≠ .ok (.seq tag [.seq tag' []]) := by
  constructor
  · intro hlaw tag tag' hempty
    exact not_law_of_empty h hempty hlaw
  · intro hsome
    obtain ⟨tag, nodes, seqs, hseq, hnodes, hdesc, hc, hfit⟩ := create_ok h
    have hne : seqs ≠ [[]] := by
      intro heq
      obtain ⟨tag', rfl⟩ := (described_empty hnodes hdesc).mp heq
      exact hsome tag tag' hseq
    have hpart : Partitions c.toSequenceCommandImpl seqs := by
      rw [hc]
      exact partitions_ofSequences
    exact ⟨tag, nodes, seqs, hseq, hdesc, hpart,
      fun base ↦ create_dump hc hfit (described_lt hdesc) (described_ne_nil hnodes hdesc) hne,
      fun _ _ _ _ _ _ ↦ hpart.performs⟩

end Law

/-- Numbers are read from a stream that takes their base from the text, and must fill the scalar. -/
def yamlCpp : YamlCpp where
  decode s :=
    let (n, rest) := Lib.Numeral.strtoul 64 s.toList
    if n < 2 ^ 64 ∧ rest = [] ∧ s ≠ "" then some n else none
  encode n := String.ofList (Nat.toDigits 10 n)
  decode_lt s n h := by
    dsimp only at h
    split_ifs at h with hn
    cases h
    exact hn.1
  decode_encode n hn := by
    have hread := Lib.Numeral.strtoul_decimal (s := []) hn (by simp)
    rw [List.append_nil] at hread
    have hne : String.ofList (Nat.toDigits 10 n) ≠ "" := by
      intro hnil
      have hlist := congrArg String.toList hnil
      rw [String.toList_ofList] at hlist
      exact Nat.toDigits_ne_nil hlist
    dsimp only
    rw [String.toList_ofList, hread]
    exact if_pos ⟨hn, rfl, hne⟩

/-- There is no function but the one that does nothing. -/
def noXfrm : EnumRegistry := ⟨fun name ↦ name = "?", rfl⟩

/-- `sequence: [[{entry: a/b, value: 5}], []]` -/
theorem sequence_law_iff_sample :
    SequenceLaw yamlCpp noXfrm "cmd".toList
      (.map "?" [("sequence", .seq "?" [.seq "?" [.map "?" [("entry", .scalar "?" "a/b"),
        ("value", .scalar "?" "5")]], .seq "?" []])])
      ⟨⟨"cmd".toList, [("a/b".toList, 5)], [0, 1, 1]⟩, none⟩ := by
  refine (sequence_law_iff ?_).mpr ?_
  · rfl
  · intro tag tag' h
    cases h

/-- `sequence: [[]]` -/
theorem not_sequence_law : ¬∀ Y R name node c,
    CSequenceCommandImpl.create Y R name node = .ok c → SequenceLaw Y R name node c := by
  intro hlaw
  have hcreate : CSequenceCommandImpl.create yamlCpp noXfrm "cmd".toList
      (.map "?" [("sequence", .seq "?" [.seq "?" []])]) =
        .ok ⟨⟨"cmd".toList, [], [0, 0]⟩, some defaultEnum⟩ := rfl
  exact not_law_of_empty hcreate rfl (hlaw _ _ _ _ _ hcreate)

end Cpsw.Config
