import Tfs.Api.RpcTx
import Tfs.Lib.EarlyExit

/-! Requests with missing members (`PARSE_PARAMS`, `PARSE_REGULAR_JSON` and `PARSE_JSON` in
    `api/interface/rpc_tx.cpp`).

    Whether a missing member is filled in or refused goes by the keys `isFindUtxo` and `txInfo`
    alone, and these count as there once their own turn has come. What is filled in is put into the
    object and not into the member. So a request is read although members are missing (`Accepted`),
    and `isFindUtxo` keeps whatever the new message had there. -/

namespace Tfs.Api.MessageType

open EarlyExit

variable {φ : Type} {lib : JsonLib φ} {js js' : Json φ} {w : Message φ} {names : List Str} {f : Field}

/-! ### The conditions -/

/-- The keys that decide about a missing member. -/
def utxoKeys : List Str := utxoFields.map Field.name

/-- A member is missing, or it has a value of its type. -/
def Fits (lib : JsonLib φ) (js : Json φ) (f : Field) : Prop :=
  ∀ j, js.find f.name = some j → ∃ x, f.type.getTo lib j f.type.initial = .ok x

/-- A member is missing and refused: each of the two keys is there or had its turn before. -/
def RefusedAt (js : Json φ) (names : List Str) (f : Field) : Prop :=
  js.find f.name = none ∧ f.type ≠ .addrValues ∧ ∀ key ∈ utxoKeys, js.contains key ∨ key ∈ names

/-- The members are read one after the other; the keys in `names` had their turn before. -/
def Reads (lib : JsonLib φ) (js : Json φ) : List Str → List Field → Prop
  | _, [] => True
  | names, f :: rest => (Fits lib js f ∧ ¬ RefusedAt js names f) ∧ Reads lib js (names ++ [f.name]) rest

/-- What is under `params`: an object, what a text stands for, or null where the key is missing. -/
def paramsOf (lib : JsonLib φ) (key : Str) (jsObject : Json φ) : Option (Json φ) :=
  match jsObject.find key with
  | some (.string s) => (lib.parse s).toOption
  | some (.object es) => some (.object es)
  | some _ => none
  | none => some .null

/-- A key is present under `params`. -/
def InParams (lib : JsonLib φ) (t : MessageType) (json key : Str) : Prop :=
  ∃ jsObject jsParams, lib.parse json = .ok jsObject ∧
    paramsOf lib t.kind.body.name jsObject = some jsParams ∧ jsParams.contains key

/-- The request is read: there are two objects, or null, and all their members fit or are filled in. -/
def Accepted (lib : JsonLib φ) (t : MessageType) (json : Str) : Prop :=
  ∃ jsObject jsParams, lib.parse json = .ok jsObject ∧
    paramsOf lib t.kind.body.name jsObject = some jsParams ∧
    (jsObject.IsMap ∧ Reads lib jsObject [] t.kind.regular) ∧
      jsParams.IsMap ∧ Reads lib jsParams [t.kind.body.name] t.parsed

/-! ### One member -/

theorem readAddrValues_isOk : ∀ (l : List (Json φ)) (m m' : SortedMap Str Str),
    (∃ x, FieldType.readAddrValues l m = .ok x) → ∃ x, FieldType.readAddrValues l m' = .ok x
  | [], _, m', _ => ⟨m', rfl⟩
  | j :: rest, m, m', h => by
    rw [FieldType.readAddrValues] at h ⊢
    split at h
    · exact readAddrValues_isOk rest _ _ h
    · obtain ⟨x, hx⟩ := h
      cases hx

/-- Whether a value can be read does not depend on what the member was before. -/
theorem getTo_isOk {j : Json φ} {t : FieldType} (old old' : t.Value φ) (h : ∃ x, t.getTo lib j old = .ok x) :
    ∃ x, t.getTo lib j old' = .ok x := by
  have hmap : ∀ {α : Type} {r : Except Str α} (a a' : α), (∃ x, r.mapError (·, a) = .ok x) →
      ∃ x, r.mapError (·, a') = .ok x := by
    intro α r a a' h
    cases r with
    | ok x => exact ⟨x, rfl⟩
    | error what =>
      obtain ⟨x, hx⟩ := h
      cases hx
  cases t with
  | addrValues => exact readAddrValues_isOk _ _ _ h
  | json => exact ⟨j, rfl⟩
  | string => exact hmap _ _ h
  | bool => exact hmap _ _ h
  | int => exact hmap _ _ h
  | uint64 => exact hmap _ _ h
  | strings => exact hmap _ _ h
  | stringMap => exact hmap _ _ h

/-- `js'` is `js` after the turns of the keys in `names`. -/
structure Filled (js : Json φ) (names : List Str) (js' : Json φ) : Prop where
  isMap : js'.IsMap
  contains_iff : ∀ key ∈ utxoKeys, js'.contains key ↔ js.contains key ∨ key ∈ names
  find_eq : ∀ k ∉ names, js'.find k = js.find k

theorem Filled.refl (h : js.IsMap) : Filled js [] js :=
  ⟨h, fun _ _ => (or_iff_left List.not_mem_nil).symm, fun _ _ => rfl⟩

/-- A missing member is filled in, or the two keys are there. -/
theorem fillMissing_spec (h : js.IsMap) (key : Str) :
    ((∀ k ∈ utxoKeys, js.contains k) → fillMissing js key = .error (str "not found key:" ++ key)) ∧
      ((¬ ∀ k ∈ utxoKeys, js.contains k) → ∃ js' value, fillMissing js key = .ok js' ∧ js'.IsMap ∧
        ∀ k, js'.find k = if k = key then some value else js.find k) := by
  have hkeys : (∀ k ∈ utxoKeys, js.contains k) ↔
      js.contains (str "isFindUtxo") ∧ js.contains (str "txInfo") := by
    simp [utxoKeys, utxoFields, fields]
  rw [hkeys, fillMissing]
  constructor
  · rintro ⟨hfind, htx⟩
    rw [hfind, htx]
    rfl
  · intro hnot
    cases hfind : js.contains (str "isFindUtxo") with
    | false =>
      obtain ⟨js', hset, hmap, hentry⟩ := h.set key (.boolean false)
      exact ⟨js', _, hset, hmap, hentry⟩
    | true =>
      have htx : js.contains (str "txInfo") = false := by
        rw [← Bool.not_eq_true]
        exact fun htx => hnot ⟨hfind, htx⟩
      obtain ⟨js', hset, hmap, hentry⟩ := h.set key (.string [])
      rw [htx]
      exact ⟨js', _, hset, hmap, hentry⟩

section Member
variable (h : Filled js names js') (hf : f.name ∉ names)
include h hf

/-- The turn of a member that fits and is not refused. -/
theorem parseField_of_fits (hkey : f.name ∈ utxoKeys → f.type ≠ .addrValues) (hfits : Fits lib js f)
    (hnot : ¬ RefusedAt js names f) : ∃ js'' w', parseField lib f js' w = .ok (js'', w') ∧
      Filled js (names ++ [f.name]) js'' ∧ ∀ g, (g = f → js.find f.name = none) → w' g = w g := by
  have hfind := h.find_eq f.name hf
  have hstep : ∀ js'' : Json φ, js''.IsMap → (∀ k ≠ f.name, js''.find k = js'.find k) →
      (f.name ∈ utxoKeys → js''.contains f.name) → Filled js (names ++ [f.name]) js'' := by
    intro js'' hmap hother hown
    refine ⟨hmap, fun key hin => ?_, fun k hk => ?_⟩
    · rw [List.mem_append, List.mem_singleton, ← or_assoc]
      by_cases heq : key = f.name
      · subst heq
        exact iff_of_true (hown hin) (.inr rfl)
      · rw [or_iff_left heq, ← h.contains_iff key hin, Json.contains, Json.contains, hother key heq]
    · rw [List.mem_append, List.mem_singleton, not_or] at hk
      rw [hother k hk.2, h.find_eq k hk.1]
  rw [parseField]
  cases hentry : js.find f.name with
  | some j =>
    obtain ⟨x, hx⟩ := getTo_isOk f.type.initial (w f) (hfits j hentry)
    rw [hentry] at hfind
    rw [hfind]
    simp only [hx]
    refine ⟨js', _, rfl, hstep js' h.isMap (fun _ _ => rfl) fun _ => ?_, fun g hg => ?_⟩
    · exact Json.contains_eq_true.mpr ⟨j, hfind⟩
    · refine Function.update_of_ne (fun heq => ?_) _ _
      cases hg heq
  | none =>
    rw [hentry] at hfind
    rw [hfind]
    by_cases htype : f.type = .addrValues
    · simp only [htype, if_true]
      exact ⟨js', w, rfl, hstep js' h.isMap (fun _ _ => rfl) fun hin => absurd htype (hkey hin),
        fun _ _ => rfl⟩
    · simp only [htype, if_false]
      have hopen : ¬ ∀ k ∈ utxoKeys, js'.contains k := fun hall =>
        hnot ⟨hentry, htype, fun key hin => (h.contains_iff key hin).mp (hall key hin)⟩
      obtain ⟨js'', value, hfill, hmap, hset⟩ := (fillMissing_spec h.isMap f.name).2 hopen
      rw [hfill]
      refine ⟨js'', w, rfl, hstep js'' hmap (fun k hk => by rw [hset, if_neg hk]) fun _ => ?_, fun _ _ => rfl⟩
      exact Json.contains_eq_true.mpr ⟨value, by rw [hset, if_pos rfl]⟩

/-- The turn of any other member. -/
theorem parseField_error (hbad : ¬ (Fits lib js f ∧ ¬ RefusedAt js names f)) :
    ∃ e, parseField lib f js' w = .error e := by
  have hfind := h.find_eq f.name hf
  rw [parseField, hfind]
  cases hentry : js.find f.name with
  | some j =>
    cases hget : f.type.getTo lib j (w f) with
    | error e =>
      simp only [hget]
      exact ⟨_, rfl⟩
    | ok x =>
      refine absurd ⟨fun j' hj' => ?_, fun href => ?_⟩ hbad
      · obtain rfl : j = j' := Option.some.inj (hentry.symm.trans hj')
        exact getTo_isOk _ _ ⟨x, hget⟩
      · rw [RefusedAt, hentry] at href
        cases href.1
  | none =>
    have href : RefusedAt js names f := by
      by_contra hnot
      refine hbad ⟨fun j hj => ?_, hnot⟩
      rw [hentry] at hj
      cases hj
    simp only [href.2.1, if_false]
    rw [(fillMissing_spec h.isMap f.name).1 fun key hin => (h.contains_iff key hin).mpr (href.2.2 key hin)]
    exact ⟨_, rfl⟩

end Member

/-! ### All members -/

/-- The members are read to the end exactly if each fits and none is refused; a missing one keeps
    its value. -/
theorem parseFields_spec (lib : JsonLib φ) :
    ∀ {fs : List Field} {names : List Str} {js' : Json φ} {w : Message φ},
    Filled js names js' → (names ++ fs.map Field.name).Nodup →
    (∀ f ∈ fs, f.name ∈ utxoKeys → f.type ≠ .addrValues) →
    (Reads lib js names fs → ∃ js'' w', parseFields lib fs js' w = .ok (js'', w') ∧
      Filled js (names ++ fs.map Field.name) js'' ∧ ∀ g, (g ∈ fs → js.find g.name = none) → w' g = w g) ∧
      (¬ Reads lib js names fs → ∃ e, parseFields lib fs js' w = .error e)
  | [], names, js', w, h, _, _ =>
    ⟨fun _ => ⟨js', w, rfl, by rwa [List.map_nil, List.append_nil], fun _ _ => rfl⟩,
      fun hnot => absurd trivial hnot⟩
  | f :: rest, names, js', w, h, hnodup, hkeys => by
    have hf : f.name ∉ names := fun hin =>
      (List.nodup_append.mp hnodup).2.2 _ hin _ List.mem_cons_self rfl
    have hnames : names ++ (f :: rest).map Field.name = names ++ [f.name] ++ rest.map Field.name := by
      rw [List.map_cons, List.append_assoc, List.singleton_append]
    rw [Reads, parseFields]
    by_cases hfits : Fits lib js f ∧ ¬ RefusedAt js names f
    · obtain ⟨js₁, w₁, hrun, hfilled, hkept⟩ :=
        parseField_of_fits (w := w) h hf (hkeys f List.mem_cons_self) hfits.1 hfits.2
      obtain ⟨hok, herror⟩ := parseFields_spec lib (w := w₁) hfilled (hnames ▸ hnodup)
        fun g hg => hkeys g (List.mem_cons_of_mem _ hg)
      rw [hrun, and_iff_right hfits]
      refine ⟨fun hreads => ?_, herror⟩
      obtain ⟨js'', w', hrest, hfilled', hkept'⟩ := hok hreads
      refine ⟨js'', w', hrest, hnames ▸ hfilled', fun g hg => ?_⟩
      rw [hkept' g fun hin => hg (List.mem_cons_of_mem _ hin),
        hkept g fun heq => heq ▸ hg (heq ▸ List.mem_cons_self)]
    · obtain ⟨e, hrun⟩ := parseField_error (w := w) h hf hfits
      rw [hrun]
      exact ⟨fun hreads => absurd hreads.1 hfits, fun _ => ⟨e, rfl⟩⟩

/-- What is no object and not null has no members, and none can be filled in. -/
theorem parseFields_of_not_isMap (lib : JsonLib φ) (h : ¬ js.IsMap) : ∀ {fs : List Field} {w : Message φ},
    (∃ f ∈ fs, f.type ≠ .addrValues) → ∃ e, parseFields lib fs js w = .error e
  | [], _, hsome => by
    obtain ⟨f, hf, -⟩ := hsome
    cases hf
  | f :: rest, w, hsome => by
    obtain ⟨hfind, hset⟩ := Json.not_isMap h
    rw [parseFields, parseField, hfind]
    by_cases htype : f.type = .addrValues
    · rw [List.exists_mem_cons_iff, or_iff_right (not_not.mpr htype)] at hsome
      simp only [htype, if_true]
      exact parseFields_of_not_isMap lib h hsome
    · obtain ⟨what, hwhat⟩ := hset f.name (.boolean false)
      have hfill : fillMissing js f.name = .error what := by
        rw [fillMissing, Json.contains, hfind]
        exact hwhat
      simp only [htype, if_false, hfill]
      exact ⟨_, rfl⟩

/-- The macro for `params` gives what is there, and a missing one counts as read. -/
theorem parseParams_spec (lib : JsonLib φ) {key : Str} (hkey : key ∉ utxoKeys) {jsObject jsObject' : Json φ}
    (hfind : jsObject'.find key = jsObject.find key) :
    (∀ {jsParams}, paramsOf lib key jsObject = some jsParams →
      ∃ js', parseParams lib key jsObject' = .ok js' ∧
      (jsParams.IsMap → Filled jsParams [key] js') ∧ (¬ jsParams.IsMap → js' = jsParams)) ∧
      (paramsOf lib key jsObject = none → ∃ what, parseParams lib key jsObject' = .error what) := by
  have hsame : ∀ jsParams : Json φ, jsParams.IsMap → Filled jsParams [key] jsParams := fun jsParams hmap =>
    ⟨hmap, fun k hk => (or_iff_left (by simpa using ne_of_mem_of_not_mem hk hkey)).symm, fun _ _ => rfl⟩
  rw [paramsOf, parseParams, hfind]
  cases jsObject.find key with
  | none =>
    refine ⟨fun heq => ?_, by rintro ⟨⟩⟩
    obtain rfl := Option.some.inj heq
    obtain ⟨js', hset, hmap, hentry⟩ := Json.IsMap.set (j := .null) trivial key (.boolean false)
    refine ⟨js', hset, fun _ => ⟨hmap, fun k hk => ?_, fun k hk => ?_⟩, fun hnot => absurd trivial hnot⟩
    · rw [Json.contains, hentry, if_neg (ne_of_mem_of_not_mem hk hkey), List.mem_singleton,
        or_iff_left (ne_of_mem_of_not_mem hk hkey)]
      rfl
    · rw [hentry, if_neg (by simpa using hk)]
  | some value =>
    cases value with
    | object es =>
      exact ⟨fun heq => ⟨_, rfl, Option.some.inj heq ▸ hsame _, fun _ => Option.some.inj heq⟩,
        by rintro ⟨⟩⟩
    | string s =>
      cases hparse : lib.parse s with
      | ok js =>
        simp only [hparse, Except.toOption]
        exact ⟨fun heq => ⟨js, rfl, Option.some.inj heq ▸ hsame _, fun _ => Option.some.inj heq⟩,
          by rintro ⟨⟩⟩
      | error e =>
        obtain ⟨syntactic, what⟩ := e
        simp only [hparse, Except.toOption]
        refine ⟨by rintro _ ⟨⟩, fun _ => ?_⟩
        cases syntactic <;> exact ⟨_, rfl⟩
    | _ => exact ⟨by rintro _ ⟨⟩, fun _ => ⟨_, rfl⟩⟩

variable {t : MessageType}

/-- What the macros rely on in a message type with `isFindUtxo` and `txInfo`. -/
structure HasUtxoFields (t : MessageType) : Prop where
  nodup : (t.kind.body.name :: t.parsed.map Field.name).Nodup
  not_map : ∀ f ∈ t.parsed, f.name ∈ utxoKeys → f.type ≠ .addrValues
  some_plain : ∃ f ∈ t.parsed, f.type ≠ .addrValues

set_option maxRecDepth 4000 in
theorem all_hasUtxoFields : ∀ t ∈ all, utxoFields ⊆ t.own → t.HasUtxoFields := by
  have hall : ∀ t ∈ all, (∀ f ∈ utxoFields, f ∈ t.own) →
      (t.kind.body.name :: t.parsed.map Field.name).Nodup ∧
      (∀ f ∈ t.parsed, f.name ∈ utxoKeys → f.type ≠ .addrValues) ∧ ∃ f ∈ t.parsed, f.type ≠ .addrValues := by
    decide
  intro t ht hown
  obtain ⟨hnodup, hmap, hplain⟩ := hall t ht fun f hf => hown hf
  exact ⟨hnodup, hmap, hplain⟩

/-- The part of `_paseFromJson` behind the regular members. -/
def parseBody (lib : JsonLib φ) (t : MessageType) (jsObject : Json φ) (w : Message φ) :
    Except (Str × Message φ) (Message φ) := do
  let jsParams ← (parseParams lib t.kind.body.name jsObject).mapError (·, w)
  let (_, w) ← parseFields lib t.parsed jsParams w
  .ok w

theorem parse_eq (lib : JsonLib φ) (t : MessageType) (w : Message φ) (json : Str) : parse lib t w json = (do
    let jsObject ← (lib.parse json).mapError fun e => (e.2, w)
    let (jsObject, w) ← parseFields lib t.kind.regular jsObject w
    parseBody lib t jsObject w) := rfl

/-- What is under `params` is read to the end exactly if it can be and its members are read. -/
theorem parseBody_spec (lib : JsonLib φ) (h : t.HasUtxoFields) {jsObject jsObject' : Json φ}
    (hfind : jsObject'.find t.kind.body.name = jsObject.find t.kind.body.name) :
    (∀ {jsParams}, paramsOf lib t.kind.body.name jsObject = some jsParams →
      jsParams.IsMap ∧ Reads lib jsParams [t.kind.body.name] t.parsed →
      ∃ w', parseBody lib t jsObject' w = .ok w' ∧ ∀ g, jsParams.find g.name = none → w' g = w g) ∧
      ((¬ ∃ jsParams, paramsOf lib t.kind.body.name jsObject = some jsParams ∧
        jsParams.IsMap ∧ Reads lib jsParams [t.kind.body.name] t.parsed) →
      ∃ e, parseBody lib t jsObject' w = .error e) := by
  have hkey : t.kind.body.name ∉ utxoKeys := by cases t.kind <;> decide
  obtain ⟨hsome, hnone⟩ := parseParams_spec lib hkey hfind
  refine ⟨fun {jsParams} hparams hreads => ?_, fun hnot => ?_⟩
  · obtain ⟨js₂, hrun₂, hfilled, -⟩ := hsome hparams
    obtain ⟨js₃, w', hrun₃, -, hkept⟩ :=
      (parseFields_spec lib (w := w) (hfilled hreads.1) h.nodup h.not_map).1 hreads.2
    refine ⟨w', ?_, fun g hg => hkept g fun _ => hg⟩
    rw [parseBody, hrun₂]
    simp only [Except.mapError, bind, Except.bind, hrun₃]
  · cases hparams : paramsOf lib t.kind.body.name jsObject with
    | none =>
      obtain ⟨what, hrun⟩ := hnone hparams
      exact ⟨(what, w), by rw [parseBody, hrun]; rfl⟩
    | some jsParams =>
      obtain ⟨js₂, hrun₂, hfilled, hsame⟩ := hsome hparams
      have hrun₃ : ∃ e, parseFields lib t.parsed js₂ w = .error e := by
        by_cases hmap : jsParams.IsMap
        · exact (parseFields_spec lib (hfilled hmap) h.nodup h.not_map).2 fun hreads =>
            hnot ⟨jsParams, hparams, hmap, hreads⟩
        · rw [hsame hmap]
          exact parseFields_of_not_isMap lib hmap h.some_plain
      obtain ⟨e, hrun₃⟩ := hrun₃
      refine ⟨e, ?_⟩
      rw [parseBody, hrun₂]
      simp only [Except.mapError, bind, Except.bind, hrun₃]

/-- A request is read to the end exactly if it is accepted, and a member that is missing under
    `params` is left as it was. -/
theorem parse_spec (h : t.HasUtxoFields) (lib : JsonLib φ) (w : Message φ) (json : Str) :
    (Accepted lib t json → ∃ w', parse lib t w json = .ok w' ∧
      ∀ g ∉ t.kind.regular, ¬ InParams lib t json g.name → w' g = w g) ∧
      (¬ Accepted lib t json → ∃ e, parse lib t w json = .error e) := by
  have hbody : t.kind.body.name ∉ t.kind.regular.map Field.name := by cases t.kind <;> decide
  rw [parse_eq]
  cases hparse : lib.parse json with
  | error e =>
    refine ⟨fun hacc => ?_, fun _ => ⟨_, rfl⟩⟩
    obtain ⟨jsObject, -, hok, -⟩ := hacc
    rw [hparse] at hok
    cases hok
  | ok jsObject =>
    by_cases hregular : jsObject.IsMap ∧ Reads lib jsObject [] t.kind.regular
    · obtain ⟨js₁, w₁, hrun₁, hfilled, hkept₁⟩ := (parseFields_spec lib (w := w) (.refl hregular.1)
        (by cases t.kind <;> decide) (by cases t.kind <;> decide)).1 hregular.2
      obtain ⟨hok, herror⟩ := parseBody_spec lib (w := w₁) h (hfilled.find_eq _ hbody)
      simp only [Except.mapError, bind, Except.bind, hrun₁]
      refine ⟨fun hacc => ?_, fun hnot => herror fun hbad => hnot ?_⟩
      · obtain ⟨jsObject', jsParams, hparse', hparams, -, hreads⟩ := hacc
        obtain rfl := Except.ok.inj (hparse.symm.trans hparse')
        obtain ⟨w', hrun, hkept⟩ := hok hparams hreads
        refine ⟨w', hrun, fun g hg hmiss => ?_⟩
        rw [hkept g (Json.contains_eq_false.mp fun hin => hmiss ⟨_, _, hparse, hparams, hin⟩),
          hkept₁ g fun hin => absurd hin hg]
      · obtain ⟨jsParams, hparams, hreads⟩ := hbad
        exact ⟨jsObject, jsParams, hparse, hparams, hregular, hreads⟩
    · have hplain : ∃ f ∈ t.kind.regular, f.type ≠ .addrValues := by cases t.kind <;> decide
      have hrun : ∃ e, parseFields lib t.kind.regular jsObject w = .error e := by
        by_cases hmap : jsObject.IsMap
        · exact (parseFields_spec lib (.refl hmap) (by cases t.kind <;> decide)
            (by cases t.kind <;> decide)).2 fun hreads => hregular ⟨hmap, hreads⟩
        · exact parseFields_of_not_isMap lib hmap hplain
      obtain ⟨e, hrun⟩ := hrun
      refine ⟨fun hacc => absurd ?_ hregular, fun _ => ⟨e, ?_⟩⟩
      · obtain ⟨jsObject', jsParams, hparse', -, hok, -⟩ := hacc
        rwa [Except.ok.inj (hparse.symm.trans hparse')]
      · simp only [Except.mapError, bind, Except.bind, hrun]

/-! ### The texts of the errors -/

/-- It is an error that is reported. -/
def NotOk (what : Str) : Prop := what ≠ str "OK"

/-- What comes along with the text does not matter. -/
theorem with_throws {α β : Type} {r : Except Str β} (a : α) (h : Throws NotOk r) :
    Throws (fun e : Str × α => NotOk e.1) (r.mapError (·, a)) := .mapError h

/-- A longer text is not this one. -/
theorem notOk_append {what : Str} (first : Str) (h : 2 < first.length) : NotOk (first ++ what) := by
  intro heq
  have hlength := congrArg List.length heq
  rw [List.length_append, show (str "OK").length = 2 from rfl] at hlength
  omega

theorem typeError_notOk (id : ℕ) (what : Str) : NotOk (Json.typeError id what) := by
  rw [Json.typeError, List.append_assoc, List.append_assoc]
  exact notOk_append _ (by decide)

theorem wrongType_throws {α : Type} (expected : String) (j : Json φ) :
    Throws NotOk (j.wrongType expected : Except Str α) := .error (typeError_notOk _ _)

theorem getString_throws (j : Json φ) : Throws NotOk j.getString := by
  cases j with
  | string s => exact .ok s
  | _ => exact wrongType_throws _ _

theorem getBool_throws (j : Json φ) : Throws NotOk j.getBool := by
  cases j with
  | boolean b => exact .ok b
  | _ => exact wrongType_throws _ _

theorem getNumber_throws {α : Type} (ofInt : ℤ → α) (ofFloat : φ → α) (j : Json φ) :
    Throws NotOk (j.getNumber ofInt ofFloat) := by
  cases j with
  | number n => exact .ok _
  | float x => exact .ok _
  | _ => exact wrongType_throws _ _

theorem getStrings_throws (j : Json φ) : Throws NotOk j.getStrings := by
  cases j with
  | array elements => exact .mapM getString_throws elements
  | _ => exact wrongType_throws _ _

theorem getStringMap_throws (j : Json φ) : Throws NotOk j.getStringMap := by
  cases j with
  | object entries =>
    refine Throws.bind (Throws.mapM (fun e => ?_) entries) fun _ => .ok _
    exact (getString_throws e.2).bind fun _ => .ok _
  | _ => exact wrongType_throws _ _

theorem stringAt_throws (j : Json φ) (key : Str) : Throws NotOk (FieldType.stringAt j key) := by
  rw [FieldType.stringAt]
  cases j.find key with
  | some v => exact getString_throws v
  | none => exact .ok _

theorem readAddrValues_throws : ∀ (l : List (Json φ)) (m : SortedMap Str Str),
    Throws (fun e => NotOk e.1) (FieldType.readAddrValues l m)
  | [], m => .ok m
  | j :: rest, m => by
    rw [FieldType.readAddrValues]
    split
    · exact readAddrValues_throws rest _
    · next what hwhat =>
      refine .error (Throws.bind (stringAt_throws j _) (fun _ => ?_) what hwhat)
      exact (stringAt_throws j _).bind fun _ => .ok _

theorem getTo_throws (lib : JsonLib φ) (j : Json φ) (t : FieldType) (old : t.Value φ) :
    Throws (fun e => NotOk e.1) (t.getTo lib j old) := by
  cases t with
  | string => exact with_throws old (getString_throws j)
  | bool => exact with_throws old (getBool_throws j)
  | int => exact with_throws old (getNumber_throws _ _ j)
  | uint64 => exact with_throws old (getNumber_throws _ _ j)
  | strings => exact with_throws old (getStrings_throws j)
  | stringMap => exact with_throws old (getStringMap_throws j)
  | addrValues => exact readAddrValues_throws _ _
  | json => exact .ok _

theorem set_throws (j : Json φ) (key : Str) (value : Json φ) : Throws NotOk (j.set key value) := by
  cases j with
  | null => exact .ok _
  | object entries => exact .ok _
  | _ => exact .error (typeError_notOk _ _)

theorem fillMissing_throws (js : Json φ) (key : Str) : Throws NotOk (fillMissing js key) := by
  rw [fillMissing]
  split_ifs
  · exact set_throws _ _ _
  · exact set_throws _ _ _
  · exact .error (notOk_append _ (by decide))

theorem parseField_throws (lib : JsonLib φ) (f : Field) (js : Json φ) (w : Message φ) :
    Throws (fun e => NotOk e.1) (parseField lib f js w) := by
  rw [parseField]
  cases js.find f.name with
  | some j =>
    cases hget : f.type.getTo lib j (w f) with
    | ok x =>
      simp only [hget]
      exact .ok _
    | error e =>
      simp only [hget]
      exact .error (getTo_throws lib j f.type (w f) e hget)
  | none =>
    by_cases htype : f.type = .addrValues
    · simp only [htype, if_true]
      exact .ok _
    · cases hfill : fillMissing js f.name with
      | ok js' =>
        simp only [htype, if_false]
        exact .ok _
      | error what =>
        simp only [htype, if_false]
        exact .error (fillMissing_throws js f.name what hfill)

theorem parseFields_throws (lib : JsonLib φ) : ∀ (fs : List Field) (js : Json φ) (w : Message φ),
    Throws (fun e => NotOk e.1) (parseFields lib fs js w)
  | [], _, _ => .ok _
  | f :: rest, js, w => by
    rw [parseFields]
    exact (parseField_throws lib f js w).bind fun r => parseFields_throws lib rest r.1 r.2

variable (hlib : ∀ s e, lib.parse s = .error e → NotOk e.2)
include hlib

theorem parseParams_throws (key : Str) (jsObject : Json φ) : Throws NotOk (parseParams lib key jsObject) := by
  rw [parseParams]
  split
  · next s _ =>
    split
    · exact .ok _
    · exact .error (by rw [List.append_assoc, List.append_assoc]; exact notOk_append _ (by decide))
    · next what hwhat => exact .error (hlib s _ hwhat)
  · exact .ok _
  · exact .error (notOk_append _ (by decide))
  · exact fillMissing_throws _ _

theorem parse_throws (t : MessageType) (w : Message φ) (json : Str) :
    Throws (fun e => NotOk e.1) (parse lib t w json) := by
  rw [parse]
  refine Throws.bind (.mapError (hlib json)) fun jsObject => ?_
  refine (parseFields_throws lib _ jsObject w).bind fun r => ?_
  refine (with_throws r.2 (parseParams_throws hlib _ r.1)).bind fun jsParams => ?_
  exact (parseFields_throws lib _ jsParams r.2).bind fun _ => .ok _

/-- A request is answered "OK" exactly if it is accepted. -/
theorem paseFromJson_ok_iff (h : t.HasUtxoFields) (w : Message φ) (json : Str) :
    (t.paseFromJson lib w json).1 = str "OK" ↔ Accepted lib t json := by
  obtain ⟨hok, herror⟩ := parse_spec h lib w json
  by_cases hacc : Accepted lib t json
  · obtain ⟨w', hrun, -⟩ := hok hacc
    exact iff_of_true (by rw [paseFromJson, hrun]) hacc
  · obtain ⟨e, hrun⟩ := herror hacc
    refine iff_of_false ?_ hacc
    rw [paseFromJson, hrun]
    exact parse_throws hlib t w json e hrun

omit hlib

/-! ### Missing members -/

/-- A request is answered "OK" only if no member but `isFindUtxo` and `txInfo` is missing, and then
    these two are read as `false` and as the empty string where they are missing. -/
def DefaultsOnly (lib : JsonLib φ) (t : MessageType) (json : Str) : Prop :=
  ∀ w : Message φ, Fresh w → (t.paseFromJson lib w json).1 = str "OK" →
    (∀ f ∈ t.own, f ∉ utxoFields → InParams lib t json f.name) ∧
      (¬ InParams lib t json (str "isFindUtxo") →
        (t.paseFromJson lib w json).2 ⟨str "isFindUtxo", .bool⟩ = false) ∧
      (¬ InParams lib t json (str "txInfo") →
        (t.paseFromJson lib w json).2 ⟨str "txInfo", .string⟩ = ([] : Str))

/-- Missing members are treated this way exactly where the request is not accepted at all, or
    nothing but `txInfo` is missing in it. -/
theorem defaultsOnly_iff (lib : JsonLib φ) (hlib : ∀ s e, lib.parse s = .error e → e.2 ≠ str "OK")
    {t : MessageType} (ht : t ∈ all) (hutxo : utxoFields ⊆ t.own) (json : Str) :
    DefaultsOnly lib t json ↔ ¬ Accepted lib t json ∨
      (∀ f ∈ t.own, f ∉ utxoFields → InParams lib t json f.name) ∧
        InParams lib t json (str "isFindUtxo") := by
  have h := all_hasUtxoFields t ht hutxo
  have hregular : ∀ f ∈ utxoFields, f ∉ t.kind.regular := by cases t.kind <;> decide
  have hkept : Accepted lib t json → ∀ (w : Message φ) (f : Field), f ∈ utxoFields →
      ¬ InParams lib t json f.name → (t.paseFromJson lib w json).2 f = w f := fun hacc w f hf hmiss => by
    obtain ⟨w', hrun, hleft⟩ := (parse_spec h lib w json).1 hacc
    rw [paseFromJson, hrun]
    exact hleft f (hregular f hf) hmiss
  constructor
  · intro hrule
    by_cases hacc : Accepted lib t json
    · refine .inr ⟨?_, ?_⟩
      · exact (hrule (fun f => f.type.initial) (fun _ _ => rfl) ((paseFromJson_ok_iff hlib h _ _).mpr hacc)).1
      · -- the new message may have `true` there
        by_contra hmiss
        let w : Message φ := Function.update (fun f => f.type.initial) ⟨str "isFindUtxo", .bool⟩ true
        have hw : Fresh w := fun f hf => Function.update_of_ne (fun heq => by rw [heq] at hf; cases hf) _ _
        have hfalse := (hrule w hw ((paseFromJson_ok_iff hlib h _ _).mpr hacc)).2.1 hmiss
        have htrue : w ⟨str "isFindUtxo", .bool⟩ = true := Function.update_self ..
        rw [hkept hacc w _ (by decide) hmiss, htrue] at hfalse
        cases hfalse
    · exact .inl hacc
  · rintro (hnot | ⟨hown, hfind⟩) w hw hok
    · exact absurd ((paseFromJson_ok_iff hlib h w json).mp hok) hnot
    · have hacc := (paseFromJson_ok_iff hlib h w json).mp hok
      refine ⟨hown, fun hmiss => absurd hfind hmiss, fun hmiss => ?_⟩
      rw [hkept hacc w _ (by decide) hmiss]
      exact hw _ rfl

theorem oneDocument_parse (text : Str) (document : Json φ) :
    (oneDocument text document).parse text = .ok document := if_pos rfl

theorem oneDocument_error {text s : Str} {document : Json φ} {e : Bool × Str}
    (h : (oneDocument text document).parse s = .error e) : e.2 ≠ str "OK" := by
  by_cases hs : s = text
  · rw [hs, oneDocument_parse] at h
    cases h
  · have herror : (oneDocument text document).parse s = .error (true, []) := if_neg hs
    rw [herror] at h
    cases h
    decide

/-- The text of a request for a bonus, with these parameters. -/
def bonusText (params : Str) : Str :=
  str "\x7b\"id\":\"1\",\"jsonrpc\":\"2.0\",\"params\":" ++ params ++ str "\x7d"

/-- The document of that text. -/
def bonusDocument (params : List (Str × Json ℚ)) : Json ℚ :=
  .object [(str "id", .string (str "1")), (str "jsonrpc", .string (str "2.0")),
    (str "params", .object params)]

/-- `txInfo` alone is missing. -/
def bonusParams : List (Str × Json ℚ) :=
  [(str "Addr", .string (str "0xa0")), (str "isFindUtxo", .boolean true)]

/-- The text of these parameters. -/
def bonusParamsText : Str := str "\x7b\"Addr\":\"0xa0\",\"isFindUtxo\":true\x7d"

/-- A request without `txInfo`. -/
theorem defaultsOnly_bonus : DefaultsOnly (oneDocument (bonusText bonusParamsText) (bonusDocument bonusParams))
    getBonusReq (bonusText bonusParamsText) := by
  have hin : ∀ key, (Json.object bonusParams).contains key → InParams
      (oneDocument (bonusText bonusParamsText) (bonusDocument bonusParams)) getBonusReq
      (bonusText bonusParamsText) key := fun key h =>
    ⟨bonusDocument bonusParams, .object bonusParams, oneDocument_parse _ _, rfl, h⟩
  have hown : ∀ f ∈ getBonusReq.own, f ∉ utxoFields → (Json.object bonusParams).contains f.name := by
    decide
  exact (defaultsOnly_iff _ (fun _ _ => oneDocument_error) (by decide) (by decide) _).mpr
    (.inr ⟨fun f hf hne => hin _ (hown f hf hne), hin _ (by decide)⟩)

/-- A request without any member is answered "OK". -/
theorem bonus_without_members : ¬ ∀ (lib : JsonLib ℚ),
    (∀ s e, lib.parse s = .error e → e.2 ≠ str "OK") →
    ∀ t ∈ all, utxoFields ⊆ t.own → ∀ json, DefaultsOnly lib t json := by
  intro h
  have hrule := h (oneDocument (bonusText (str "\x7b\x7d")) (bonusDocument [])) (fun _ _ => oneDocument_error)
    getBonusReq (by decide) (by decide) (bonusText (str "\x7b\x7d"))
  obtain ⟨hown, -⟩ := hrule (fun f => f.type.initial) (fun _ _ => rfl) (by decide)
  obtain ⟨jsObject, jsParams, hparse, hparams, hin⟩ := hown ⟨str "Addr", .string⟩ (by decide) (by decide)
  obtain rfl : bonusDocument [] = jsObject := Except.ok.inj ((oneDocument_parse _ _).symm.trans hparse)
  obtain rfl : Json.object [] = jsParams := Option.some.inj hparams
  exact absurd hin (by decide)

end Tfs.Api.MessageType
