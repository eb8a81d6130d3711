import GateAsm.Attr.Basic

/-!
# Lists of tags

Tags are kept in the order in which they were set. Setting a name that is not there yet puts it at the
end, so that new tags with names of their own come behind the old ones.
-/

namespace GateAsm

/-- New tags that may be put behind others: their names are not reserved, and none is there twice. -/
structure Addable (reserved : List String) (old new : List (String × Attr)) : Prop where
  nodup : (new.map (·.1)).Nodup
  free : ∀ k ∈ new.map (·.1), k ∉ reserved ∧ k ∉ old.map (·.1)

theorem Attr.lookup_eq_none_iff {k : String} {tags : List (String × Attr)} :
    Attr.lookup k tags = Option.none ↔ k ∉ tags.map (·.1) := by
  induction tags with
  | nil => simp [lookup]
  | cons e tags ih =>
    simp only [lookup, List.map_cons, List.mem_cons, not_or]
    split
    · next h => simp [h]
    · next h => rw [ih]; exact ⟨fun hk => ⟨fun e => h e.symm, hk⟩, fun hk => hk.2⟩

theorem Attr.put_of_not_mem {k : String} {v : Attr} {tags : List (String × Attr)} (h : k ∉ tags.map (·.1)) :
    Attr.put k v tags = tags ++ [(k, v)] := by
  induction tags with
  | nil => rfl
  | cons e tags ih =>
    simp only [List.map_cons, List.mem_cons, not_or] at h
    rw [put, if_neg (Ne.symm h.1), ih h.2]; rfl

theorem Addable.nil {reserved : List String} {old : List (String × Attr)} : Addable reserved old [] :=
  ⟨by simp, by simp⟩

theorem addable_cons_iff {reserved : List String} {old new : List (String × Attr)} {k : String} {v : Attr} :
    Addable reserved old ((k, v) :: new) ↔
      (k ∉ reserved ∧ k ∉ old.map (·.1)) ∧ Addable reserved (old ++ [(k, v)]) new := by
  constructor
  · rintro ⟨hn, hf⟩
    rw [List.map_cons, List.nodup_cons] at hn
    refine ⟨hf k (by simp), hn.2, fun x hx => ?_⟩
    obtain ⟨h, h'⟩ := hf x (by simp only [List.map_cons, List.mem_cons]; exact .inr hx)
    refine ⟨h, ?_⟩
    simp only [List.map_append, List.map_cons, List.map_nil, List.mem_append, List.mem_singleton, not_or]
    exact ⟨h', fun e => hn.1 (e ▸ hx)⟩
  · rintro ⟨hk, hn, hf⟩
    have old_free := fun x hx => (hf x hx).2
    simp only [List.map_append, List.map_cons, List.map_nil, List.mem_append, List.mem_singleton, not_or]
      at old_free
    refine ⟨?_, ?_⟩
    · rw [List.map_cons, List.nodup_cons]
      exact ⟨fun h => (old_free k h).2 rfl, hn⟩
    · intro x hx
      rw [List.map_cons, List.mem_cons] at hx
      rcases hx with rfl | hx
      · exact hk
      · exact ⟨(hf x hx).1, (old_free x hx).1⟩

theorem Attr.foldl_put {old new : List (String × Attr)} (h : Addable [] old new) :
    new.foldl (fun tags (e : String × Attr) => Attr.put e.1 e.2 tags) old = old ++ new := by
  induction new generalizing old with
  | nil => simp
  | cons e new ih =>
    obtain ⟨⟨-, hk⟩, hrest⟩ := addable_cons_iff.mp h
    rw [List.foldl_cons, put_of_not_mem hk, ih hrest, List.append_assoc, List.singleton_append]

theorem Attr.lookup_append {k : String} {old new : List (String × Attr)} :
    Attr.lookup k (old ++ new) = (Attr.lookup k old).or (Attr.lookup k new) := by
  induction old with
  | nil => rfl
  | cons e old ih =>
    simp only [List.cons_append, lookup]
    split
    · rfl
    · exact ih

/-- Names that are reserved anyway need not be looked for among the old tags. -/
theorem addable_reserved_iff {reserved : List String} {old new : List (String × Attr)}
    (h : ∀ k ∈ old.map (·.1), k ∈ reserved) : Addable reserved old new ↔ Addable reserved [] new := by
  constructor
  · rintro ⟨hn, hf⟩
    exact ⟨hn, fun k hk => ⟨(hf k hk).1, by simp⟩⟩
  · rintro ⟨hn, hf⟩
    exact ⟨hn, fun k hk => ⟨(hf k hk).1, fun hold => (hf k hk).1 (h k hold)⟩⟩

theorem Addable.filter_append {reserved : List String} {old new : List (String × Attr)}
    (hold : ∀ k ∈ old.map (·.1), k ∈ reserved) (h : Addable reserved [] new) :
    (old ++ new).filter (fun t => !reserved.contains t.1) = new := by
  have h1 : old.filter (fun t => !reserved.contains t.1) = [] := by
    rw [List.filter_eq_nil_iff]
    intro t ht
    have := hold t.1 (List.mem_map_of_mem ht)
    simp [this]
  have h2 : new.filter (fun t => !reserved.contains t.1) = new := by
    rw [List.filter_eq_self]
    intro t ht
    have := (h.free t.1 (List.mem_map_of_mem ht)).1
    simp [this]
  rw [List.filter_append, h1, h2, List.nil_append]

end GateAsm
