import LoopNest.Format.Decode
import LoopNest.Format.Encode
import LoopNest.Proofs.PassModeText
import LoopNest.Proofs.SettledGroups
import LoopNest.Proofs.WrittenRecords

namespace LoopNest

open Json Fields

theorem decodeInt_encodeInt (n : Int64) : decodeInt (encodeInt n) = .ok n := by
  simp only [encodeInt, decodeInt]
  rw [Int64.ofInt?_eq_some_iff.mpr rfl]

theorem decodeMap_encodeMap {value : Decoder α} {encode : α → Json} {m : SortedMap String α}
    (h : ∀ e ∈ m.entries, value (encode e.2) = .ok e.2) :
    decodeMap value (encodeMap encode m) = .ok m := by
  have hm := decodeMembers_map h
  simp only [decodeMap, encodeMap]
  rw [hm]
  exact congrArg Except.ok m.ofList_entries

theorem decodePairs_encodePairs [DecidableEq κ] [Ord κ] [Std.TransOrd κ] [Std.LawfulEqOrd κ]
    {key : Decoder κ} {value : Decoder ν} {encode : κ → Json} {encode' : ν → Json}
    {m : SortedMap κ ν} (hk : ∀ k, key (encode k) = .ok k)
    (hv : ∀ e ∈ m.entries, value (encode' e.2) = .ok e.2) :
    decodePairs key value (encodePairs encode encode' m) = .ok m := by
  have hm : decodeList (decodePair key value)
      (.array (m.entries.map fun e => .array [encode e.1, encode' e.2])) = .ok m.entries :=
    mapM_map_ok fun e he => decodePair_array (hk e.1) (hv e he)
  simp only [decodePairs, encodePairs]
  rw [hm]
  exact congrArg Except.ok m.ofList_entries

theorem decodeList_encodeList {item : Decoder α} {encode : α → Json} {l : List α}
    (h : ∀ a ∈ l, item (encode a) = .ok a) : decodeList item (encodeList encode l) = .ok l :=
  decodeList_map h

theorem decodeString_string (s : String) : decodeString (.string s) = .ok s := rfl

theorem LinExpr.decode_encode (e : LinExpr) : LinExpr.decode e.encode = .ok e := by
  obtain ⟨constant, terms⟩ := e
  have hnd : (["constant", "terms"] : List String).Nodup := by simp
  exact decode_object rfl (read_seq
    (read_map (read_field hnd (by simp) (decodeInt_encodeInt constant)))
    (read_field hnd (by simp) (decodeMap_encodeMap fun t _ => decodeInt_encodeInt t.2)))

theorem LinExpr.isReadable_encode (e : LinExpr) : e.encode.isReadable = true := by
  simp only [encode, isReadable, membersReadable, encodeInt, encodeMap, Bool.true_and,
    Bool.and_true]
  exact membersReadable_map fun _ _ => rfl

theorem Region.decode_encode (r : Region) : Region.decode r.encode = .ok r := by
  cases r with
  | left t =>
    exact decode_object rfl (read_map (read_field (by simp) (by simp) t.decode_encode))
  | middle l r =>
    have hnd : (["thickness_left", "thickness_right"] : List String).Nodup := by simp
    exact decode_object rfl (read_seq
      (read_map (read_field hnd (by simp) l.decode_encode))
      (read_field hnd (by simp) r.decode_encode))
  | right t =>
    exact decode_object rfl (read_map (read_field (by simp) (by simp) t.decode_encode))

theorem Region.isReadable_encode (r : Region) : r.encode.isReadable = true := by
  cases r <;> simp [encode, isReadable, membersReadable, LinExpr.isReadable_encode]

namespace Dimension

theorem isReadable_encode (d : Dimension) : d.encode.isReadable = true := by
  induction d with
  | basic name => simp [encode, isReadable, membersReadable]
  | block name parent min max step ih =>
    simp [encode, isReadable, membersReadable, LinExpr.isReadable_encode, ih]
  | sub name parent region ih =>
    simp [encode, isReadable, membersReadable, Region.isReadable_encode, ih]

/-- A derivation splits into its kind and the other members. -/
theorem split?_tag {variant : String} {others : List (String × Json)} (byPlace : Bool)
    (hv : variant ∈ tag.variants) (hfresh : "type" ∉ others.map Prod.fst)
    (hr : membersReadable others = true) :
    tag.split? byPlace (.object (("type", .string variant) :: others)) =
      some (variant, .object others) :=
  Tag.split?_object (t := tag) byPlace hv hfresh hr

/-- The name of a record is read as it is, the rest of it depends on the kind. -/
theorem decodeWithin_record {n : Nat} {byPlace : Bool} {kind : Json} (name : String)
    (derivation : Derivation)
    (h : decodeDerivation byPlace (decodeWithin n true) kind = .ok derivation) :
    decodeWithin (n + 1) byPlace (.object [("name", .string name), ("kind", kind)]) =
      .ok (derivation.named name) := by
  have hnd : (["name", "kind"] : List String).Nodup := by simp
  exact decode_object rfl (read_seq
    (read_map (read_field hnd (by simp) (decodeString_string name)))
    (read_field hnd (by simp) h))

theorem decodeWithin_encode {d : Dimension} {n : Nat} (h : d.lineage.length ≤ n)
    (byPlace : Bool) : decodeWithin n byPlace d.encode = .ok d := by
  induction d generalizing n byPlace with
  | basic name =>
    obtain ⟨n, rfl⟩ := Nat.exists_eq_add_one.mpr h
    refine decodeWithin_record name .basic ?_
    rw [decodeDerivation, split?_tag byPlace (by simp [tag]) (by simp) rfl]
    rfl
  | block name parent min max step ih =>
    obtain ⟨n, rfl⟩ := Nat.exists_eq_add_one.mpr (Nat.zero_lt_of_lt h)
    refine decodeWithin_record name (.block parent min max step) ?_
    rw [decodeDerivation, split?_tag byPlace (by simp [tag]) (by simp)
      (by simp [membersReadable, isReadable_encode, LinExpr.isReadable_encode])]
    have hnd : (["parent", "min", "max", "step"] : List String).Nodup := by simp
    have hparent : decodeWithin n true parent.encode = .ok parent :=
      ih (Nat.le_of_succ_le_succ h) true
    exact decode_object rfl (read_seq (read_seq (read_seq
      (read_map (read_field hnd (by simp) hparent))
      (read_field hnd (by simp) min.decode_encode))
      (read_field hnd (by simp) max.decode_encode))
      (read_field hnd (by simp) step.decode_encode))
  | sub name parent region ih =>
    obtain ⟨n, rfl⟩ := Nat.exists_eq_add_one.mpr (Nat.zero_lt_of_lt h)
    refine decodeWithin_record name (.sub parent region) ?_
    rw [decodeDerivation, split?_tag byPlace (by simp [tag]) (by simp)
      (by simp [membersReadable, isReadable_encode, Region.isReadable_encode])]
    have hnd : (["parent", "region"] : List String).Nodup := by simp
    have hparent : decodeWithin n true parent.encode = .ok parent :=
      ih (Nat.le_of_succ_le_succ h) true
    exact decode_object rfl (read_seq
      (read_map (read_field hnd (by simp) hparent))
      (read_field hnd (by simp) region.decode_encode))

/-- A dimension is written at least as deep as its lineage is long. -/
theorem lineage_length_le (d : Dimension) : d.lineage.length ≤ d.encode.nesting + 1 := by
  induction d with
  | basic name => simp [lineage]
  | block name parent min max step ih =>
    simp only [lineage, List.length_cons, encode, nesting, nestingOfMembers]
    omega
  | sub name parent region ih =>
    simp only [lineage, List.length_cons, encode, nesting, nestingOfMembers]
    omega

theorem decode_encode (byPlace : Bool) (d : Dimension) : decode byPlace d.encode = .ok d :=
  decodeWithin_encode d.lineage_length_le byPlace

end Dimension

theorem Interval.decode_encode (i : Interval) : Interval.decode i.encode = .ok i := by
  cases i with
  | closed dim lower upper =>
    have hsplit : Interval.tag.split? false (closed dim lower upper).encode =
        some ("closed", .object [("dim", dim.encode), ("lower", lower.encode),
          ("upper", upper.encode)]) :=
      Tag.split?_object (t := Interval.tag) false (by simp [Interval.tag])
        (by simp [Interval.tag])
        (by simp [membersReadable, Dimension.isReadable_encode, LinExpr.isReadable_encode])
    have hnd : (["dim", "lower", "upper"] : List String).Nodup := by simp
    rw [Interval.decode, hsplit]
    exact decode_object rfl (read_seq (read_seq
      (read_map (read_field hnd (by simp) (dim.decode_encode true)))
      (read_field hnd (by simp) lower.decode_encode))
      (read_field hnd (by simp) upper.decode_encode))
  | null dim =>
    have hsplit : Interval.tag.split? false (null dim).encode =
        some ("null", .object [("dim", dim.encode)]) :=
      Tag.split?_object (t := Interval.tag) false (by simp [Interval.tag])
        (by simp [Interval.tag]) (by simp [membersReadable, Dimension.isReadable_encode])
    rw [Interval.decode, hsplit]
    exact decode_object rfl (read_map (read_field (by simp) (by simp) (dim.decode_encode true)))

/-- A settled group reads back as it is. -/
theorem IntervalGroup.decode_encode {g : IntervalGroup} (h : g.Settled) :
    IntervalGroup.decode g.encode = .ok g := by
  have hnd : (["intervals", "relations"] : List String).Nodup := by simp
  have hfields : IntervalGroup.fields.decode g.encode =
      .ok (g.intervals, g.relations.toList) :=
    decode_object rfl (read_seq
      (read_map (read_field hnd (by simp)
        (decodeList_encodeList fun i _ => i.decode_encode)))
      (read_field hnd (by simp)
        (decodeList_encodeList fun chain _ =>
          decodeList_encodeList fun d _ => d.decode_encode false)))
  simp only [IntervalGroup.decode]
  rw [hfields]
  have h : build g.intervals g.relations.toList = .ok g := h
  simp only [bind, Except.bind]
  rw [h]
  rfl

theorem Direction.decode_encode (d : Direction) : Direction.decode d.encode = .ok d := by
  cases d <;> rfl

theorem Property.decode_encode (p : Property) : Property.decode p.encode = .ok p := by
  cases p <;> rfl

theorem IterationSpace.decode_encode {s : IterationSpace} (h : s.Settled) :
    IterationSpace.decode s.encode = .ok s := by
  obtain ⟨intervals, subIterators, directions⟩ := s
  have hnd : (["intervals", "sub_iterators", "directions"] : List String).Nodup := by simp
  have hdim := fun d : Dimension => d.decode_encode false
  exact decode_object rfl (read_seq (read_seq
    (read_map (read_field hnd (by simp) (IntervalGroup.decode_encode h)))
    (read_field hnd (by simp)
      (decodePairs_encodePairs hdim fun e _ => decodeList_encodeList fun d _ => hdim d)))
    (read_field hnd (by simp) (decodePairs_encodePairs hdim fun e _ => e.2.decode_encode)))

theorem DataSpace.decode_encode {s : DataSpace} (h : s.Settled) :
    DataSpace.decode s.encode = .ok s := by
  obtain ⟨intervals, parts⟩ := s
  have hnd : (["intervals", "parts"] : List String).Nodup := by simp
  exact decode_object rfl (read_seq
    (read_map (read_field hnd (by simp) (IntervalGroup.decode_encode h.1)))
    (read_field hnd (by simp)
      (decodeMap_encodeMap fun e he => IntervalGroup.decode_encode (h.2 e he))))

theorem Properties.decode_encode (p : Properties) : Properties.decode p.encode = .ok p := by
  obtain ⟨tags⟩ := p
  have hset : ∀ s : SortedSet Property,
      (SortedSet.ofList <$> decodeList Property.decode (encodeList Property.encode s.toList)) =
        (.ok s : Except DecodeError (SortedSet Property)) := by
    intro s
    rw [decodeList_encodeList fun p _ => p.decode_encode]
    exact congrArg Except.ok s.ofList_toList
  simp only [Properties.decode, Properties.encode]
  rw [decodePairs_encodePairs (fun d => d.decode_encode false) fun e _ => hset e.2]
  rfl

theorem Access.decode_encode (a : Access) : Access.decode a.encode = .ok a := by
  obtain ⟨array, indices⟩ := a
  have hnd : (["array", "indices"] : List String).Nodup := by simp
  exact decode_object rfl (read_seq
    (read_map (read_field hnd (by simp) (decodeString_string array)))
    (read_field hnd (by simp) (decodeList_encodeList fun e _ => e.decode_encode)))

mutual

theorem Expr.decode_encode : (e : Expr) → Expr.decode e.encode = .ok e
  | .int n => by
    rw [Expr.encode, Expr.decode, decodeInt_encodeInt]
    rfl
  | .symbol s => by
    rw [Expr.encode, Expr.decode, decodeString_string]
    rfl
  | .access a => by
    rw [Expr.encode, Expr.decode, a.decode_encode]
    rfl
  | .add operands => by
    rw [Expr.encode, Expr.decode, Expr.decodeAll_encodeAll operands]
    rfl
  | .mul operands => by
    rw [Expr.encode, Expr.decode, Expr.decodeAll_encodeAll operands]
    rfl
  | .neg e => by
    rw [Expr.encode, Expr.decode, Expr.decode_encode e]
    rfl

theorem Expr.decodeAll_encodeAll : (es : List Expr) →
    Expr.decodeAll (Expr.encodeAll es) = .ok es
  | [] => by rw [Expr.encodeAll, Expr.decodeAll]
  | e :: es => by
    rw [Expr.encodeAll, Expr.decodeAll, Expr.decode_encode e, Expr.decodeAll_encodeAll es]
    rfl

end

theorem Equation.decode_encode {e : Equation} (h : e.Settled) :
    Equation.decode e.encode = .ok e := by
  obtain ⟨lhs, rhs, ispace, dspace⟩ := e
  have hnd : (["lhs", "rhs", "ispace", "dspace"] : List String).Nodup := by simp
  exact decode_object rfl (read_seq (read_seq (read_seq
    (read_map (read_field hnd (by simp) lhs.decode_encode))
    (read_field hnd (by simp) rhs.decode_encode))
    (read_field hnd (by simp) (IterationSpace.decode_encode h.1)))
    (read_field hnd (by simp) (DataSpace.decode_encode h.2)))

/-- A cluster of settled groups reads back as it is. -/
theorem Cluster.decode_encode {c : Cluster} (h : c.Settled) : Cluster.decode c.encode = .ok c := by
  obtain ⟨equations, ispace, dspace, properties⟩ := c
  have hnd : (["exprs", "ispace", "dspace", "properties"] : List String).Nodup := by simp
  have hequations : decodeList Equation.decode (encodeList Equation.encode equations) =
      .ok equations := decodeList_encodeList fun e he => Equation.decode_encode (h.equations e he)
  exact decode_object rfl (read_seq (read_seq (read_seq
    (read_map (read_field hnd (by simp) hequations))
    (read_field hnd (by simp) (IterationSpace.decode_encode h.ispace)))
    (read_field hnd (by simp) (DataSpace.decode_encode h.dspace)))
    (read_field hnd (by simp) properties.decode_encode))

theorem IntervalGroup.settled_of_decode {g : IntervalGroup} (h : IntervalGroup.decode j = .ok g) :
    g.Settled := by
  obtain ⟨⟨intervals, relations⟩, -, h⟩ := Returns.of_bind (returns_ok h)
  exact build_settled (mapError_ok h)

theorem IterationSpace.settled_of_decode {s : IterationSpace}
    (h : IterationSpace.decode j = .ok s) : s.Settled := by
  obtain ⟨members, h₀⟩ := decode_ok h
  obtain ⟨_, directions, h₁, -, rfl⟩ := read_seq_ok h₀
  obtain ⟨_, subIterators, h₂, -, rfl⟩ := read_seq_ok h₁
  obtain ⟨g, hg, rfl⟩ := read_map_ok h₂
  obtain ⟨j, hg⟩ := read_required_ok hg
  exact IntervalGroup.settled_of_decode hg

theorem DataSpace.settled_empty : empty.Settled :=
  ⟨IntervalGroup.settled_empty, by simp [empty, SortedMap.empty]⟩

theorem DataSpace.settled_of_decode {s : DataSpace} (h : DataSpace.decode j = .ok s) :
    s.Settled := by
  obtain ⟨members, h₀⟩ := decode_ok h
  obtain ⟨_, parts, h₁, hp, rfl⟩ := read_seq_ok h₀
  obtain ⟨g, hg, rfl⟩ := read_map_ok h₁
  obtain ⟨j, hg⟩ := read_required_ok hg
  refine ⟨IntervalGroup.settled_of_decode hg, fun e he => ?_⟩
  rcases read_field_ok hp with ⟨j, hj⟩ | hdefault
  · obtain ⟨entries, hentries, rfl⟩ := returns_map (returns_ok hj)
    obtain ⟨j, hj⟩ := mem_of_decodeMembers hentries e (SortedMap.mem_of_mem_ofList he)
    exact IntervalGroup.settled_of_decode hj
  · cases hdefault
    cases he

/-- The data space of an equation or a cluster may be left out. -/
theorem DataSpace.settled_of_read {s : DataSpace} {members : List (String × Json)}
    (h : (Fields.optional "dspace" DataSpace.decode .empty).read members = .ok s) :
    s.Settled := by
  rcases read_field_ok h with ⟨j, hj⟩ | hdefault
  · exact settled_of_decode hj
  · cases hdefault
    exact settled_empty

theorem Equation.settled_of_decode {e : Equation} (h : Equation.decode j = .ok e) :
    e.Settled := by
  obtain ⟨members, h₀⟩ := decode_ok h
  obtain ⟨_, dspace, h₁, hd, rfl⟩ := read_seq_ok h₀
  obtain ⟨_, ispace, h₂, hi, rfl⟩ := read_seq_ok h₁
  obtain ⟨_, rhs, h₃, -, rfl⟩ := read_seq_ok h₂
  obtain ⟨lhs, -, rfl⟩ := read_map_ok h₃
  obtain ⟨j, hi⟩ := read_required_ok hi
  exact ⟨IterationSpace.settled_of_decode hi, DataSpace.settled_of_read hd⟩

theorem Cluster.settled_of_decode {c : Cluster} (h : Cluster.decode j = .ok c) : c.Settled := by
  obtain ⟨members, h₀⟩ := decode_ok h
  obtain ⟨_, properties, h₁, -, rfl⟩ := read_seq_ok h₀
  obtain ⟨_, dspace, h₂, hd, rfl⟩ := read_seq_ok h₁
  obtain ⟨_, ispace, h₃, hi, rfl⟩ := read_seq_ok h₂
  obtain ⟨equations, he, rfl⟩ := read_map_ok h₃
  obtain ⟨j, he⟩ := read_required_ok he
  obtain ⟨j, hi⟩ := read_required_ok hi
  refine ⟨fun e hin => ?_, IterationSpace.settled_of_decode hi, DataSpace.settled_of_read hd⟩
  obtain ⟨j, hj⟩ := mem_of_decodeList he e hin
  exact Equation.settled_of_decode hj

theorem decodeOption_encodeOption {value : Decoder α} {encode : α → Json} {o : Option α}
    (h : ∀ a, value (encode a) = .ok a) (hnull : ∀ a, encode a ≠ .null) :
    decodeOption value (encodeOption encode o) = .ok o := by
  cases o with
  | none => rfl
  | some a =>
    rw [encodeOption, decodeOption, h a]
    · rfl
    · exact hnull a

theorem decodeSize_int {n : Nat} (h : n < UInt64.size) : decodeSize (.int n) = .ok n := by
  rw [decodeSize, if_pos ⟨Int.natCast_nonneg n, by rwa [Int.toNat_natCast]⟩, Int.toNat_natCast]

theorem lt_of_decodeSize {n : Nat} (h : decodeSize j = .ok n) : n < UInt64.size := by
  unfold decodeSize at h
  split at h
  · split at h
    · rename_i hn
      cases h
      exact hn.2
    · cases h
  · cases h

theorem PassMode.decode_text {mode : PassMode} (h : parse mode.text = .ok mode) :
    PassMode.decode (.string mode.text) = .ok mode := by
  rw [PassMode.decode, decodeString_string]
  simp only [bind, Except.bind]
  rw [h]
  rfl

theorem Config.decode_encode {c : Config} (hm : PassMode.parse c.mode.text = .ok c.mode)
    (hl : c.blockLevels < UInt64.size) : Config.decode c.encode = .ok c := by
  obtain ⟨mode, levels, inner, shape, grid, exact⟩ := c
  have hnd : (["mode", "block_levels", "block_inner", "block_shape", "grid_shape",
    "exact_blocks"] : List String).Nodup := by simp
  have hbool : ∀ b, decodeBool (.bool b) = .ok b := fun _ => rfl
  have hshape : ∀ o : Option (List Int64), decodeOption (decodeList decodeInt)
      (encodeOption (encodeList encodeInt) o) = .ok o := fun o =>
    decodeOption_encodeOption (fun l => decodeList_encodeList fun n _ => decodeInt_encodeInt n)
      (by simp [encodeList])
  exact decode_object rfl (read_seq (read_seq (read_seq (read_seq (read_seq
    (read_map (read_field hnd (by simp) (PassMode.decode_text hm)))
    (read_field hnd (by simp) (decodeSize_int hl)))
    (read_field hnd (by simp) (hbool inner)))
    (read_field hnd (by simp) (hshape shape)))
    (read_field hnd (by simp) (hshape grid)))
    (read_field hnd (by simp) (hbool exact)))

/-- A configuration that was read has a selection and a number of levels that can be read. -/
theorem Config.readable_of_decode {c : Config} (h : Config.decode j = .ok c) :
    PassMode.parse c.mode.text = .ok c.mode ∧ c.blockLevels < UInt64.size := by
  obtain ⟨members, h₀⟩ := decode_ok h
  obtain ⟨_, exact, h₁, -, rfl⟩ := read_seq_ok h₀
  obtain ⟨_, grid, h₂, -, rfl⟩ := read_seq_ok h₁
  obtain ⟨_, shape, h₃, -, rfl⟩ := read_seq_ok h₂
  obtain ⟨_, inner, h₄, -, rfl⟩ := read_seq_ok h₃
  obtain ⟨_, levels, h₅, hl, rfl⟩ := read_seq_ok h₄
  obtain ⟨mode, hm, rfl⟩ := read_map_ok h₅
  constructor
  · rcases read_field_ok hm with ⟨j, hj⟩ | hdefault
    · obtain ⟨s, -, hj⟩ := Returns.of_bind (returns_ok hj)
      exact PassMode.parse_text (mapError_ok hj)
    · cases hdefault
      exact (rfl : PassMode.parse "advanced" = .ok .advanced)
  · rcases read_field_ok hl with ⟨j, hj⟩ | hdefault
    · exact lt_of_decodeSize hj
    · cases hdefault
      exact (by decide : 1 < UInt64.size)

theorem decode_encode_of_settled {clusters : List Cluster} (h : ∀ c ∈ clusters, c.Settled) :
    decodeList Cluster.decode (encodeList Cluster.encode clusters) = .ok clusters :=
  decodeList_encodeList fun c hc => Cluster.decode_encode (h c hc)

/-- Clusters that were read are read back as they are, and so is what a run makes of them without
splitting any. Configurations that were read are read back as well, and a selection of passes read
from any text is what its own text stands for. -/
theorem written_reads_back :
    (∀ j clusters, decodeList Cluster.decode j = .ok clusters →
      decodeList Cluster.decode (encodeList Cluster.encode clusters) = .ok clusters ∧
      ∀ config out, "remainder" ∉ config.mode.passes →
        Pipeline.run config clusters = .ok out →
        decodeList Cluster.decode (encodeList Cluster.encode out.clusters) = .ok out.clusters) ∧
    (∀ j c, Config.decode j = .ok c → Config.decode c.encode = .ok c) ∧
    ∀ s mode, PassMode.parse s = .ok mode → PassMode.parse mode.text = .ok mode := by
  refine ⟨fun j clusters h => ?_, fun j c h => ?_, fun s mode h => PassMode.parse_text h⟩
  · have hsettled : ∀ c ∈ clusters, c.Settled := fun c hc => by
      obtain ⟨j, hj⟩ := mem_of_decodeList h c hc
      exact Cluster.settled_of_decode hj
    refine ⟨decode_encode_of_settled hsettled, fun config out hpass hrun => ?_⟩
    exact decode_encode_of_settled (Pipeline.run_settled hpass hrun hsettled)
  · obtain ⟨hm, hl⟩ := Config.readable_of_decode h
    exact Config.decode_encode hm hl

/-- Two clusters are read, fused and blocked by a configuration that was read, and all of it is read
back. -/
theorem written_reads_back_blocked :
    ∃ j config out,
      Config.decode (.object [("mode", .string " fuse, blocking "), ("block_inner", .bool true)]) =
        .ok config ∧
      decodeList Cluster.decode j = .ok (Cluster.writeThenRead [.parallel, .tilable]) ∧
      Pipeline.run config (Cluster.writeThenRead [.parallel, .tilable]) = .ok out ∧
      out.clusters.map (fun c => c.dimensions.map Dimension.name) = [["x0_blk0", "x"]] ∧
      decodeList Cluster.decode (encodeList Cluster.encode out.clusters) = .ok out.clusters ∧
      Config.decode config.encode = .ok config := by
  obtain ⟨hclusters, hconfig, -⟩ := written_reads_back
  obtain ⟨out, hrun, hdims⟩ : ∃ out,
      Pipeline.run { Config.forLocality with mode := .custom ["fuse", "blocking"] }
        (Cluster.writeThenRead [.parallel, .tilable]) = .ok out ∧
      out.clusters.map (fun c => c.dimensions.map Dimension.name) = [["x0_blk0", "x"]] :=
    ⟨_, rfl, rfl⟩
  have hread : Config.decode
      (.object [("mode", .string " fuse, blocking "), ("block_inner", .bool true)]) =
        .ok { Config.forLocality with mode := .custom ["fuse", "blocking"] } := rfl
  have hdecode : decodeList Cluster.decode
      (encodeList Cluster.encode (Cluster.writeThenRead [.parallel, .tilable])) =
        .ok (Cluster.writeThenRead [.parallel, .tilable]) := rfl
  exact ⟨_, _, out, hread, hdecode, hrun, hdims,
    (hclusters _ _ hdecode).2 _ _ (by decide) hrun, hconfig _ _ hread⟩

end LoopNest
