import LoopNest.Json.Fields
import LoopNest.Proofs.Returns
import Mathlib.Data.List.Nodup

namespace LoopNest

theorem mapM_map_ok {f : α → Except ε β} {g : β → α} {l : List β} (h : ∀ b ∈ l, f (g b) = .ok b) :
    (l.map g).mapM f = .ok l := by
  induction l with
  | nil => rfl
  | cons b l ih =>
    rw [List.forall_mem_cons] at h
    rw [List.map_cons, List.mapM_cons, h.1, ih h.2]
    rfl

namespace Json

theorem decodeList_map {item : Decoder α} {encode : α → Json} {l : List α}
    (h : ∀ a ∈ l, item (encode a) = .ok a) : decodeList item (.array (l.map encode)) = .ok l :=
  mapM_map_ok h

theorem decodeMembers_map {value : Decoder α} {encode : α → Json} {l : List (String × α)}
    (h : ∀ e ∈ l, value (encode e.2) = .ok e.2) :
    decodeMembers value (.object (l.map fun e => (e.1, encode e.2))) = .ok l := by
  refine mapM_map_ok fun e he => ?_
  rw [h e he]
  rfl

theorem decodePair_array {first : Decoder α} {second : Decoder β} {p : α × β}
    {encode : α → Json} {encode' : β → Json} (h : first (encode p.1) = .ok p.1)
    (h' : second (encode' p.2) = .ok p.2) :
    decodePair first second (.array [encode p.1, encode' p.2]) = .ok p := by
  simp only [decodePair]
  rw [h, h']
  rfl

/-- The elements of a decoded list are decoded values. -/
theorem mem_of_decodeList {item : Decoder α} {l : List α} (h : decodeList item j = .ok l) :
    ∀ a ∈ l, ∃ j, item j = .ok a := by
  unfold decodeList at h
  split at h
  · intro a ha
    obtain ⟨j, -, hj⟩ := exists_of_forall₂ (returns_mapM (returns_ok h)).flip ha
    exact ⟨j, hj⟩
  · cases h

theorem mem_of_decodeMembers {value : Decoder α} {l : List (String × α)}
    (h : decodeMembers value j = .ok l) : ∀ e ∈ l, ∃ j, value j = .ok e.2 := by
  unfold decodeMembers at h
  split at h
  · intro e he
    obtain ⟨m, -, hm⟩ := exists_of_forall₂ (returns_mapM (returns_ok h)).flip he
    obtain ⟨a, ha, rfl⟩ := returns_map hm
    exact ⟨m.2, ha⟩
  · cases h

theorem membersReadable_map {name : α → String} {encode : α → Json} {l : List α}
    (h : ∀ a ∈ l, (encode a).isReadable = true) :
    membersReadable (l.map fun a => (name a, encode a)) = true := by
  induction l with
  | nil => rfl
  | cons a l ih =>
    rw [List.forall_mem_cons] at h
    rw [List.map_cons, membersReadable, h.1, ih h.2]
    rfl

end Json

namespace Fields

variable {members : List (String × Json)}

theorem occurrences_of_mem {name : String} {j : Json} (hnd : (members.map Prod.fst).Nodup)
    (h : (name, j) ∈ members) : ∃ place, occurrences name members = [(place, j)] := by
  obtain ⟨before, after, rfl⟩ := List.append_of_mem h
  simp only [List.map_append, List.map_cons] at hnd
  have hfresh : name ∉ before.map Prod.fst ++ after.map Prod.fst :=
    (List.nodup_cons.mp (List.nodup_middle.mp hnd)).1
  rw [List.mem_append, not_or] at hfresh
  have hnone : ∀ (l : List (String × Json)) n, name ∉ l.map Prod.fst →
      (l.zipIdx n).filter (·.1.1 = name) = [] := by
    intro l n hl
    refine List.filter_eq_nil_iff.mpr fun m hm hname => hl ?_
    exact of_decide_eq_true hname ▸ List.mem_map_of_mem (List.fst_mem_of_mem_zipIdx hm)
  refine ⟨before.length, ?_⟩
  rw [occurrences, List.zipIdx_append, List.filter_append, List.zipIdx_cons,
    List.filter_cons_of_pos (by simp), hnone _ _ hfresh.1, hnone _ _ hfresh.2]
  simp

theorem read_field {name : String} {value : Decoder α} {default? : Option α} {a : α}
    (hnd : (members.map Prod.fst).Nodup) (h : (name, j) ∈ members) (hv : value j = .ok a) :
    (field name value default?).read members = .ok a := by
  obtain ⟨place, hp⟩ := occurrences_of_mem hnd h
  simp only [field]
  rw [hp]
  dsimp only
  rw [hv]

theorem read_map {f : α → β} {x : Fields α} {a : α} (hx : x.read members = .ok a) :
    (f <$> x).read members = .ok (f a) := by
  have hr : (f <$> x).read members =
      ((Placed.both (.ok f) (x.read members)).map fun p => p.1 p.2) := rfl
  rw [hr, hx]
  rfl

theorem read_seq {f : Fields (α → β)} {x : Fields α} {g : α → β} {a : α}
    (hf : f.read members = .ok g) (hx : x.read members = .ok a) :
    (f <*> x).read members = .ok (g a) := by
  have hr : (f <*> x).read members =
      (((f.read members).both (x.read members)).map fun p => p.1 p.2) := rfl
  rw [hr, hf, hx]
  rfl

/-- A record of exactly its fields has no others to pass over. -/
theorem decode_object {f : Fields α} {a : α} (hn : members.map Prod.fst = f.names)
    (h : f.read members = .ok a) : f.decode (.object members) = .ok a := by
  have hpass : passOthers f.names members = .ok () := by
    have hnone : members.findIdx? (fun m => m.1 ∉ f.names ∧ !m.2.isWhole) = none := by
      refine List.findIdx?_eq_none_iff.mpr fun m hm => ?_
      have hin : m.1 ∈ f.names := hn ▸ List.mem_map_of_mem hm
      simp [hin]
    rw [passOthers, hnone]
  simp only [decode, members?]
  rw [h, hpass]
  rfl

theorem both_ok {x : Placed α} {y : Placed β} {p : α × β} (h : x.both y = .ok p) :
    x = .ok p.1 ∧ y = .ok p.2 := by
  unfold Placed.both at h
  split at h <;> cases h
  exact ⟨rfl, rfl⟩

theorem read_seq_ok {f : Fields (α → β)} {x : Fields α} {b : β}
    (h : (f <*> x).read members = .ok b) :
    ∃ g a, f.read members = .ok g ∧ x.read members = .ok a ∧ b = g a := by
  have hr : (f <*> x).read members =
      (((f.read members).both (x.read members)).map fun p => p.1 p.2) := rfl
  rw [hr] at h
  cases hb : (f.read members).both (x.read members) with
  | error e =>
    rw [hb] at h
    cases h
  | ok p =>
    rw [hb] at h
    cases h
    exact ⟨p.1, p.2, (both_ok hb).1, (both_ok hb).2, rfl⟩

theorem read_map_ok {f : α → β} {x : Fields α} {b : β} (h : (f <$> x).read members = .ok b) :
    ∃ a, x.read members = .ok a ∧ b = f a := by
  have h : (pure f <*> x).read members = .ok b := h
  obtain ⟨g, a, hg, ha, rfl⟩ := read_seq_ok h
  cases hg
  exact ⟨a, ha, rfl⟩

theorem read_field_ok {name : String} {value : Decoder α} {default? : Option α} {a : α}
    (h : (field name value default?).read members = .ok a) :
    (∃ j, value j = .ok a) ∨ default? = some a := by
  simp only [field] at h
  split at h
  · split at h
    · exact .inr (congrArg some (Except.ok.inj h))
    · cases h
  · split at h
    · cases h
    · rename_i hv _
      exact .inl ⟨_, (Except.ok.inj h) ▸ hv⟩
    · cases h

theorem read_required_ok {name : String} {value : Decoder α} {a : α}
    (h : (required name value).read members = .ok a) : ∃ j, value j = .ok a :=
  (read_field_ok h).resolve_right (by simp)

theorem decode_ok {f : Fields α} {a : α} (h : f.decode j = .ok a) :
    ∃ members, f.read members = .ok a := by
  unfold decode at h
  split at h
  · cases h
  rename_i members _
  split at h
  · rename_i hb
    cases h
    exact ⟨members, (both_ok hb).1⟩
  · cases h

end Fields

/-- A tagged record splits into its variant and its fields. -/
theorem Tag.split?_object {t : Tag} {variant : String} {others : List (String × Json)}
    (byPlace : Bool) (hv : variant ∈ t.variants) (hfresh : t.key ∉ others.map Prod.fst)
    (hr : Json.membersReadable others = true) :
    t.split? byPlace (.object ((t.key, .string variant) :: others)) =
      some (variant, .object others) := by
  have hread : (Json.object ((t.key, .string variant) :: others)).isReadable = true := by
    simp only [Json.isReadable, Json.membersReadable, hr, Bool.and_true]
  have hne : ∀ m ∈ others, m.1 ≠ t.key := fun m hm he => hfresh (he ▸ List.mem_map_of_mem hm)
  have hparts : List.partition (fun m : String × Json => decide (m.1 = t.key))
      ((t.key, .string variant) :: others) = ([(t.key, .string variant)], others) := by
    rw [List.partition_eq_filter_filter, List.filter_cons_of_pos (by simp),
      List.filter_cons_of_neg (by simp), List.filter_eq_nil_iff.mpr (by simpa using hne),
      List.filter_eq_self.mpr (by simpa using hne)]
  unfold split?
  rw [hread]
  simp only [Bool.not_true, Bool.false_eq_true, if_false]
  rw [hparts]
  simp only [variantOf?, hv, if_true, Option.map_some]

end LoopNest
