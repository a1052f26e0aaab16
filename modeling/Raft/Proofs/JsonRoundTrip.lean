import Raft.Json.Reading
import Raft.Proofs.JsonTokens

/-!
# Values of JSON texts

Every value is read back from the text that is written for it. The text is written without blanks,
so what is read next always starts with the next byte.

* `Value.ReadsBack`, a value is read back whatever comes after it, with as much fuel as its text is
  long;
* `parseItems?_renderItems` and `parseFields?_renderFields`, lists of such values;
* `Value.parse?_render`, whole texts;
* `Value.list?_list` and `Value.record?_record`, typed data.
-/

namespace Raft.Json

theorem skipBlanks_cons {b : UInt8} (h : isBlank b = false) (s : Bytes) :
    skipBlanks (b :: s) = b :: s := by
  simp [skipBlanks, h]

theorem isBlank_of_isDigit {b : UInt8} (h : isDigit b = true) : isBlank b = false := by
  simp only [isBlank, Bool.or_eq_false_iff, beq_eq_false_iff_ne]
  exact ⟨⟨⟨ne_of_isDigit h (by decide), ne_of_isDigit h (by decide)⟩, ne_of_isDigit h (by decide)⟩,
    ne_of_isDigit h (by decide)⟩

/-! ### Words -/

theorem dropWord?_append (w s : Bytes) : dropWord? w (w ++ s) = some s := by
  simp [dropWord?]

theorem dropWord?_cons_of_ne {b c : UInt8} (h : c ≠ b) (w s : Bytes) :
    dropWord? (c :: w) (b :: s) = none := by
  simp [dropWord?, h]

theorem word_null : word "null" = [ascii 'n', ascii 'u', ascii 'l', ascii 'l'] := by decide

theorem word_true : word "true" = [ascii 't', ascii 'r', ascii 'u', ascii 'e'] := by decide

theorem word_false : word "false" = [ascii 'f', ascii 'a', ascii 'l', ascii 's', ascii 'e'] := by
  decide

theorem parseWord?_eq (s : Bytes) : parseWord? s =
    ((dropWord? (word "null") s).map (Value.null, ·)).or
      (((dropWord? (word "true") s).map (Value.bool true, ·)).or
        ((dropWord? (word "false") s).map (Value.bool false, ·))) := rfl

theorem parseWord?_null (s : Bytes) : parseWord? (word "null" ++ s) = some (.null, s) := by
  rw [parseWord?_eq, dropWord?_append]
  rfl

theorem parseWord?_true (s : Bytes) : parseWord? (word "true" ++ s) = some (.bool true, s) := by
  have hnull : dropWord? (word "null") (word "true" ++ s) = none := by
    rw [word_null, word_true, List.cons_append, dropWord?_cons_of_ne (by decide)]
  rw [parseWord?_eq, hnull, dropWord?_append]
  rfl

theorem parseWord?_false (s : Bytes) : parseWord? (word "false" ++ s) = some (.bool false, s) := by
  have hnull : dropWord? (word "null") (word "false" ++ s) = none := by
    rw [word_null, word_false, List.cons_append, dropWord?_cons_of_ne (by decide)]
  have htrue : dropWord? (word "true") (word "false" ++ s) = none := by
    rw [word_true, word_false, List.cons_append, dropWord?_cons_of_ne (by decide)]
  rw [parseWord?_eq, hnull, htrue, dropWord?_append]
  rfl

/-- Every word starts with its own letter. -/
theorem parseWord?_cons_of_ne {b : UInt8} (hn : ascii 'n' ≠ b) (ht : ascii 't' ≠ b)
    (hf : ascii 'f' ≠ b) (s : Bytes) : parseWord? (b :: s) = none := by
  rw [parseWord?_eq, word_null, word_true, word_false, dropWord?_cons_of_ne hn,
    dropWord?_cons_of_ne ht, dropWord?_cons_of_ne hf]
  rfl

/-! ### Values without parts -/

namespace Value

/-- A value is read back, whatever comes after it. -/
def ReadsBack (v : Value) : Prop :=
  ∀ (fuel : Nat) (rest : Bytes), v.render.length ≤ fuel → Delimited rest →
    parseValue? fuel (v.render ++ rest) = some (v, rest)

/-- A value whose first byte starts neither a string, an array nor an object is a word or a numeral.
-/
theorem readsBack_of_plain {v : Value} {b : UInt8} {s : Bytes} (hv : v.render = b :: s)
    (hblank : isBlank b = false) (hquote : b ≠ ascii '"') (hbracket : b ≠ ascii '[')
    (hbrace : b ≠ ascii '\x7b')
    (h : ∀ rest, Delimited rest →
      (parseWord? (v.render ++ rest)).or (parseNumeral? (v.render ++ rest)) = some (v, rest)) :
    v.ReadsBack := by
  intro fuel rest hfuel hrest
  cases fuel with
  | zero => simp [hv] at hfuel
  | succ fuel =>
    have hread := h rest hrest
    rw [hv, List.cons_append] at hread ⊢
    rw [parseValue?, skipBlanks_cons hblank]
    simp only [if_neg hquote, if_neg hbracket, if_neg hbrace]
    exact hread

theorem readsBack_null : ReadsBack .null := by
  refine readsBack_of_plain word_null (by decide) (by decide) (by decide) (by decide) ?_
  intro rest _
  rw [render, parseWord?_null]
  rfl

theorem readsBack_bool (b : Bool) : ReadsBack (.bool b) := by
  cases b with
  | true =>
    refine readsBack_of_plain word_true (by decide) (by decide) (by decide) (by decide) ?_
    intro rest _
    rw [render, parseWord?_true]
    rfl
  | false =>
    refine readsBack_of_plain word_false (by decide) (by decide) (by decide) (by decide) ?_
    intro rest _
    rw [render, parseWord?_false]
    rfl

theorem readsBack_natural (n : Nat) : ReadsBack (.natural n) := by
  obtain ⟨b, ds, heq, hb, -⟩ := decimal_head n
  have hne {c : UInt8} (hc : isDigit c = false) : b ≠ c := ne_of_isDigit hb hc
  refine readsBack_of_plain heq (isBlank_of_isDigit hb) (hne (by decide)) (hne (by decide))
    (hne (by decide)) ?_
  intro rest hrest
  have hword : parseWord? (decimal n ++ rest) = none := by
    rw [heq]
    exact parseWord?_cons_of_ne (hne (by decide)).symm (hne (by decide)).symm
      (hne (by decide)).symm _
  rw [render, hword, parseNumeral?_decimal n hrest]
  rfl

theorem readsBack_otherNumeral : ReadsBack .otherNumeral := by
  have hrender : word "-0" = ascii '-' :: decimal 0 := by decide
  refine readsBack_of_plain hrender (by decide) (by decide) (by decide) (by decide) ?_
  intro rest hrest
  rw [render, hrender, List.cons_append,
    parseWord?_cons_of_ne (by decide) (by decide) (by decide), parseNumeral?, if_pos rfl,
    parseUnsigned?_decimal 0 hrest]
  rfl

/-- A string is read back, whether it denotes a text or not. -/
theorem parseValue?_renderKey (key : Option String) (fuel : Nat) (rest : Bytes) :
    parseValue? (fuel + 1) (renderKey key ++ rest) =
      some (key.elim brokenText text, rest) := by
  obtain ⟨body, ps, hbody, hscan, htext⟩ := renderKey_append key rest
  rw [hbody, parseValue?, skipBlanks_cons (by decide)]
  simp only [if_true, hscan, Option.map_some, Piece.value, htext]
  cases key <;> rfl

theorem renderKey_ne_nil (key : Option String) : renderKey key ≠ [] := by
  intro h
  obtain ⟨body, ps, hbody, -⟩ := renderKey_append key []
  simp [h] at hbody

theorem readsBack_text (s : String) : ReadsBack (.text s) := by
  intro fuel rest hfuel _
  cases fuel with
  | zero =>
    exact absurd (List.length_eq_zero_iff.1 (Nat.le_zero.1 hfuel)) (renderKey_ne_nil (some s))
  | succ fuel => exact parseValue?_renderKey (some s) fuel rest

theorem readsBack_brokenText : ReadsBack .brokenText := by
  intro fuel rest hfuel _
  cases fuel with
  | zero => exact absurd (List.length_eq_zero_iff.1 (Nat.le_zero.1 hfuel)) (renderKey_ne_nil none)
  | succ fuel => exact parseValue?_renderKey none fuel rest

/-! ### Arrays and objects -/

/-- No value starts with a blank or with the end of an array. -/
theorem exists_head (v : Value) :
    ∃ b s, v.render = b :: s ∧ isBlank b = false ∧ ascii ']' ≠ b := by
  have hstring (key : Option String) :
      ∃ b s, renderKey key = b :: s ∧ isBlank b = false ∧ ascii ']' ≠ b := by
    obtain ⟨body, ps, hbody, -⟩ := renderKey_append key []
    rw [List.append_nil] at hbody
    exact ⟨_, _, hbody, by decide⟩
  cases v with
  | null => exact ⟨_, _, word_null, by decide⟩
  | bool b =>
    cases b with
    | true => exact ⟨_, _, word_true, by decide⟩
    | false => exact ⟨_, _, word_false, by decide⟩
  | natural n =>
    obtain ⟨b, ds, heq, hb, -⟩ := decimal_head n
    exact ⟨b, ds, heq, isBlank_of_isDigit hb, (ne_of_isDigit hb (by decide)).symm⟩
  | otherNumeral => exact ⟨_, _, show word "-0" = [ascii '-', ascii '0'] by decide, by decide⟩
  | text s => exact hstring (some s)
  | brokenText => exact hstring none
  | array items => exact ⟨_, _, rfl, by decide⟩
  | object fields => exact ⟨_, _, rfl, by decide⟩

/-- A list of items is read back. -/
theorem parseItems?_renderItems {items : List Value} (hne : items ≠ [])
    (hitems : ∀ v ∈ items, v.ReadsBack) {fuel : Nat} (hfuel : (renderItems items).length < fuel)
    (rest : Bytes) :
    parseItems? fuel (renderItems items ++ ascii ']' :: rest) = some (items, rest) := by
  induction items generalizing fuel with
  | nil => exact absurd rfl hne
  | cons v vs ih =>
    obtain ⟨fuel, rfl⟩ : ∃ k, fuel = k + 1 := ⟨fuel - 1, by omega⟩
    have hv := hitems v (List.mem_cons_self ..)
    cases vs with
    | nil =>
      rw [renderItems] at hfuel ⊢
      have hread := hv fuel (ascii ']' :: rest) (by omega) (delimited_cons (by decide) _)
      simp [parseItems?, hread, skipBlanks_cons (b := ascii ']') (by decide)]
    | cons w ws =>
      have hcomma : renderItems (v :: w :: ws) ++ ascii ']' :: rest =
          v.render ++ ascii ',' :: (renderItems (w :: ws) ++ ascii ']' :: rest) := by
        simp [renderItems]
      have hlength : (renderItems (v :: w :: ws)).length =
          v.render.length + 1 + (renderItems (w :: ws)).length := by
        simp [renderItems]
        omega
      have hread := hv fuel (ascii ',' :: (renderItems (w :: ws) ++ ascii ']' :: rest)) (by omega)
        (delimited_cons (by decide) _)
      have hrest := ih (List.cons_ne_nil w ws) (fun u hu => hitems u (List.mem_cons_of_mem _ hu))
        (show (renderItems (w :: ws)).length < fuel by omega)
      have hend : ascii ',' ≠ ascii ']' := by decide
      rw [hcomma, parseItems?, hread]
      simp [skipBlanks_cons (b := ascii ',') (by decide), hend, hrest]

/-- A list of fields is read back. -/
theorem parseFields?_renderFields {fields : List (Option String × Value)} (hne : fields ≠ [])
    (hfields : ∀ f ∈ fields, f.2.ReadsBack) {fuel : Nat}
    (hfuel : (renderFields fields).length < fuel) (rest : Bytes) :
    parseFields? fuel (renderFields fields ++ ascii '\x7d' :: rest) = some (fields, rest) := by
  -- a key starts with a quote, so no blanks are skipped before it
  have hkey (key : Option String) (s : Bytes) :
      parseKey? (skipBlanks (renderKey key ++ s)) = some (key, s) := by
    obtain ⟨body, ps, hbody, -⟩ := renderKey_append key s
    rw [hbody, skipBlanks_cons (by decide), ← hbody, parseKey?_renderKey]
  have hcolon (s : Bytes) : dropWord? [ascii ':'] (skipBlanks (ascii ':' :: s)) = some s := by
    rw [skipBlanks_cons (by decide)]
    exact dropWord?_append [ascii ':'] s
  induction fields generalizing fuel with
  | nil => exact absurd rfl hne
  | cons f fs ih =>
    obtain ⟨fuel, rfl⟩ : ∃ k, fuel = k + 1 := ⟨fuel - 1, by omega⟩
    obtain ⟨key, v⟩ := f
    have hv : v.ReadsBack := hfields (key, v) (List.mem_cons_self ..)
    cases fs with
    | nil =>
      have hlast : renderFields [(key, v)] ++ ascii '\x7d' :: rest =
          renderKey key ++ ascii ':' :: (v.render ++ ascii '\x7d' :: rest) := by
        simp [renderFields]
      have hlength : v.render.length ≤ (renderFields [(key, v)]).length := by
        simp [renderFields]
        omega
      have hread := hv fuel (ascii '\x7d' :: rest) (by omega) (delimited_cons (by decide) _)
      rw [hlast, parseFields?, hkey]
      simp [hcolon, hread, skipBlanks_cons (b := ascii '\x7d') (by decide)]
    | cons f' fs =>
      have hcomma : renderFields ((key, v) :: f' :: fs) ++ ascii '\x7d' :: rest =
          renderKey key ++ ascii ':' :: (v.render ++ ascii ',' ::
            (renderFields (f' :: fs) ++ ascii '\x7d' :: rest)) := by
        simp [renderFields]
      have hlength : v.render.length + (renderFields (f' :: fs)).length <
          (renderFields ((key, v) :: f' :: fs)).length := by
        simp [renderFields]
        omega
      have hread := hv fuel (ascii ',' :: (renderFields (f' :: fs) ++ ascii '\x7d' :: rest))
        (by omega) (delimited_cons (by decide) _)
      have hrest := ih (List.cons_ne_nil f' fs) (fun u hu => hfields u (List.mem_cons_of_mem _ hu))
        (show (renderFields (f' :: fs)).length < fuel by omega)
      have hend : ascii ',' ≠ ascii '\x7d' := by decide
      rw [hcomma, parseFields?, hkey]
      simp [hcolon, hread, skipBlanks_cons (b := ascii ',') (by decide), hend, hrest]

theorem readsBack_array {items : List Value} (hitems : ∀ v ∈ items, v.ReadsBack) :
    ReadsBack (.array items) := by
  intro fuel rest hfuel _
  have hlength : (render (.array items)).length = (renderItems items).length + 2 := by
    simp [render]
  obtain ⟨fuel, rfl⟩ : ∃ k, fuel = k + 1 := ⟨fuel - 1, by omega⟩
  have harray : render (.array items) ++ rest =
      ascii '[' :: (renderItems items ++ ascii ']' :: rest) := by
    simp [render]
  have hquote : ascii '[' ≠ ascii '"' := by decide
  rw [harray, parseValue?, skipBlanks_cons (by decide)]
  simp only [if_neg hquote, if_true]
  cases items with
  | nil =>
    have hend := dropWord?_append [ascii ']'] rest
    rw [List.singleton_append] at hend
    rw [renderItems, List.nil_append, skipBlanks_cons (by decide), hend]
  | cons v vs =>
    -- the bracket that would end an empty array is not there
    have hfirst : dropWord? [ascii ']'] (skipBlanks (renderItems (v :: vs) ++ ascii ']' :: rest)) =
        none := by
      obtain ⟨b, s, hb, hblank, hend⟩ := v.exists_head
      cases vs <;> simp [renderItems, hb, skipBlanks_cons hblank, dropWord?_cons_of_ne hend]
    have hread := parseItems?_renderItems (List.cons_ne_nil v vs) hitems
      (show (renderItems (v :: vs)).length < fuel by omega) rest
    simp [hfirst, hread]

theorem readsBack_object {fields : List (Option String × Value)}
    (hfields : ∀ f ∈ fields, f.2.ReadsBack) : ReadsBack (.object fields) := by
  intro fuel rest hfuel _
  have hlength : (render (.object fields)).length = (renderFields fields).length + 2 := by
    simp [render]
  obtain ⟨fuel, rfl⟩ : ∃ k, fuel = k + 1 := ⟨fuel - 1, by omega⟩
  have hobject : render (.object fields) ++ rest =
      ascii '\x7b' :: (renderFields fields ++ ascii '\x7d' :: rest) := by
    simp [render]
  have hquote : ascii '\x7b' ≠ ascii '"' := by decide
  have hbracket : ascii '\x7b' ≠ ascii '[' := by decide
  rw [hobject, parseValue?, skipBlanks_cons (by decide)]
  simp only [if_neg hquote, if_neg hbracket, if_true]
  cases fields with
  | nil =>
    have hend := dropWord?_append [ascii '\x7d'] rest
    rw [List.singleton_append] at hend
    rw [renderFields, List.nil_append, skipBlanks_cons (by decide), hend]
  | cons f fs =>
    have hfirst : dropWord? [ascii '\x7d']
        (skipBlanks (renderFields (f :: fs) ++ ascii '\x7d' :: rest)) = none := by
      obtain ⟨body, ps, hbody, -⟩ := renderKey_append f.1 []
      rw [List.append_nil] at hbody
      have hend : ascii '\x7d' ≠ ascii '"' := by decide
      cases fs <;> simp [renderFields, hbody, skipBlanks_cons (b := ascii '"') (by decide),
        dropWord?_cons_of_ne hend]
    have hread := parseFields?_renderFields (List.cons_ne_nil f fs) hfields
      (show (renderFields (f :: fs)).length < fuel by omega) rest
    simp [hfirst, hread]

/-- Every value is read back. -/
theorem readsBack : ∀ v : Value, v.ReadsBack
  | .null => readsBack_null
  | .bool b => readsBack_bool b
  | .natural n => readsBack_natural n
  | .otherNumeral => readsBack_otherNumeral
  | .text s => readsBack_text s
  | .brokenText => readsBack_brokenText
  | .array items => readsBack_array fun v _ => readsBack v
  | .object fields => readsBack_object fun f _ => readsBack f.2
decreasing_by
  · have := List.sizeOf_lt_of_mem ‹v ∈ items›
    simp only [array.sizeOf_spec]
    omega
  · have := List.sizeOf_lt_of_mem ‹f ∈ fields›
    cases f
    simp only [object.sizeOf_spec, Prod.mk.sizeOf_spec] at this ⊢
    omega

/-- The text of a value reads as this value. -/
theorem parse?_render (v : Value) : parse? v.render = some v := by
  have hread := v.readsBack (2 * v.render.length + 1) [] (by omega) delimited_nil
  rw [List.append_nil] at hread
  rw [parse?, hread]
  rfl

/-! ### Typed data -/

theorem byte?_natural (b : UInt8) : byte? (.natural b.toNat) = some b := by
  have hlt : b.toNat < 256 := b.toNat_lt
  simp [byte?, hlt]

theorem list?_list_of_mem {α : Type} {read : Value → Option α} {write : α → Value} {l : List α}
    (h : ∀ x ∈ l, read (write x) = some x) : (list write l).list? read = some l := by
  show (l.map write).mapM read = some l
  induction l with
  | nil => rfl
  | cons x xs ih =>
    obtain ⟨hx, hxs⟩ := List.forall_mem_cons.1 h
    simp [hx, ih hxs]

theorem list?_list {α : Type} {read : Value → Option α} {write : α → Value}
    (h : ∀ x, read (write x) = some x) (xs : List α) : (list write xs).list? read = some xs :=
  list?_list_of_mem fun x _ => h x

theorem bytes?_list (bs : Bytes) : (list (fun b => natural b.toNat) bs).bytes? = some bs :=
  list?_list byte?_natural bs

/-- A field is found by its name, when no other has this name. -/
theorem single?_of_mem {fields : List (String × Value)} (hnodup : (fields.map (·.1)).Nodup)
    {f : String × Value} (hf : f ∈ fields) :
    single? (fields.map fun f => (some f.1, f.2)) f.1 = some (some f.2) := by
  have hfilter : (fields.map fun f => (some f.1, f.2)).filter (·.1 == some f.1) =
      [(some f.1, f.2)] := by
    induction fields with
    | nil => cases hf
    | cons e rest ih =>
      obtain ⟨he, hrest⟩ := List.nodup_cons.1 hnodup
      rcases List.mem_cons.1 hf with rfl | hf
      · have hnone : (rest.map fun f => (some f.1, f.2)).filter (·.1 == some f.1) = [] := by
          rw [List.filter_eq_nil_iff]
          intro g hg hname
          obtain ⟨h, hh, rfl⟩ := List.mem_map.1 hg
          refine he (List.mem_map.2 ⟨h, hh, ?_⟩)
          simpa using hname
        simp [hnone]
      · have hne : e.1 ≠ f.1 := by
          intro heq
          exact he (List.mem_map.2 ⟨f, hf, heq.symm⟩)
        simp [hne, ih hrest hf]
  rw [single?, hfilter]

/-- A record is read field by field. -/
theorem record?_record {fields : List (String × Value)} (hnodup : (fields.map (·.1)).Nodup) :
    (record fields).record? (fields.map (·.1)) = some (fields.map (some ·.2)) := by
  have hall : (fields.map fun f => (some f.1, f.2)).all (·.1.isSome) = true := by simp
  have hfields : ∀ part : List (String × Value), part ⊆ fields →
      (part.map (·.1)).mapM (single? (fields.map fun f => (some f.1, f.2))) =
        some (part.map (some ·.2)) := by
    intro part hpart
    induction part with
    | nil => rfl
    | cons f rest ih =>
      obtain ⟨hf, hrest⟩ := List.cons_subset.1 hpart
      simp [single?_of_mem hnodup hf, ih hrest]
  rw [record, record?, if_pos hall]
  exact hfields fields (List.Subset.refl _)

/-- A record with the given names has all its fields. -/
theorem record?_record_of_names {fields : List (String × Value)} {names : List String}
    (hnames : fields.map (·.1) = names) (hnodup : names.Nodup) :
    (record fields).record? names = some (fields.map (some ·.2)) := by
  subst hnames
  exact record?_record hnodup

end Value

end Raft.Json
