import Tfs.Lib.Json

/-! The messages of the RPC interface and their texts (`api/interface/rpc_tx.h`, `rpc_tx.cpp`).

    A message is a struct of named fields. `_paseToString` writes some of them into an object, some of
    them into an object under `params` or `result`; `_paseFromJson` looks for every field in one of the
    two and fills in or refuses what is missing. All bodies are made from the same macros, so a message
    type is the lists of the fields its bodies name. -/

namespace Tfs.Api

/-- `nlohmann::json::parse` and `dump`, and the conversion of a floating-point number to an integer.
    A text that is no JSON throws `parse_error`, other exceptions are kept apart; what `dump` throws is
    not caught by `_paseToString`. -/
structure JsonLib (φ : Type) where
  parse : Str → Except (Bool × Str) (Json φ)
  dump : Json φ → Except Str Str
  toInt : φ → Int32
  toUInt64 : φ → UInt64

/-! ### Fields -/

/-- The types of the fields. `addrValues` is the map of `tx_req`, written as a list of objects by hand. -/
inductive FieldType where
  | string | bool | int | uint64 | strings | stringMap | addrValues | json
  deriving DecidableEq

namespace FieldType

/-- The values of a field. -/
abbrev Value (φ : Type) : FieldType → Type
  | .string => Str
  | .bool => Bool
  | .int => Int32
  | .uint64 => UInt64
  | .strings => List Str
  | .stringMap | .addrValues => SortedMap Str Str
  | .json => Json φ

variable {φ : Type}

/-- What a constructor leaves in a field; a scalar is left as it is, and `false` or 0 stands for that. -/
def initial : (t : FieldType) → t.Value φ
  | .string => ([] : Str)
  | .bool => false
  | .int => (0 : Int32)
  | .uint64 => (0 : UInt64)
  | .strings => ([] : List Str)
  | .stringMap | .addrValues => (.empty : SortedMap Str Str)
  | .json => (.null : Json φ)

/-- The type has a constructor. -/
def isClass : FieldType → Bool
  | .bool | .int | .uint64 => false
  | _ => true

/-- The entry of one address in the list of `tx_req`. -/
def addrValue (e : Str × Str) : Json φ :=
  .object [(str "addr", .string e.1), (str "value", .string e.2)]

/-- The conversion of a value to JSON. A list nothing was pushed to stays null. -/
def toJson : (t : FieldType) → t.Value φ → Json φ
  | .string, s => .string s
  | .bool, b => .boolean b
  | .int, n => .number (Int32.toInt n)
  | .uint64, n => .number (UInt64.toNat n)
  | .strings, l => .ofStrings l
  | .stringMap, m => .ofStringMap m
  | .addrValues, m => if m.entries = [] then .null else .array (m.entries.map addrValue)
  | .json, j => j

/-- A string under a key of an entry; none there is an empty one. -/
def stringAt (j : Json φ) (key : Str) : Except Str Str :=
  match j.find key with
  | some v => v.getString
  | none => .ok []

/-- The loop over the entries of `toAddr`; an exception leaves what was read before it. -/
def readAddrValues : List (Json φ) → SortedMap Str Str →
    Except (Str × SortedMap Str Str) (SortedMap Str Str)
  | [], m => .ok m
  | j :: rest, m =>
    match (do let addr ← stringAt j (str "addr"); let value ← stringAt j (str "value"); .ok (addr, value)) with
    | .ok e => readAddrValues rest (m.upsert e.1 fun _ => e.2)
    | .error what => .error (what, m)

/-- `get_to` into a field that holds `old`; an exception comes with what is in the field then. -/
def getTo (lib : JsonLib φ) (j : Json φ) : (t : FieldType) → (old : t.Value φ) →
    Except (Str × t.Value φ) (t.Value φ)
  | .string, old => j.getString.mapError (·, old)
  | .bool, old => j.getBool.mapError (·, old)
  | .int, old => (j.getNumber Int32.ofInt lib.toInt).mapError (·, old)
  | .uint64, old => (j.getNumber UInt64.ofInt lib.toUInt64).mapError (·, old)
  | .strings, old => j.getStrings.mapError (·, old)
  | .stringMap, old => j.getStringMap.mapError (·, old)
  | .addrValues, old => readAddrValues j.items old
  | .json, _ => .ok j

end FieldType

/-- A member of a struct. -/
structure Field where
  name : Str
  type : FieldType
  deriving DecidableEq

/-- Members of one type. -/
def fields (type : FieldType) (names : List String) : List Field := names.map fun name => ⟨str name, type⟩

/-- The values of the members. -/
abbrev Message (φ : Type) := (f : Field) → f.type.Value φ

/-! ### Message types -/

/-- `REQ` and `ACK`. -/
inductive MessageKind where
  | req | ack
  deriving DecidableEq

namespace MessageKind

/-- The members written into and read from the object itself. -/
def regular : MessageKind → List Field
  | .req => fields .string ["id", "jsonrpc"]
  | .ack => fields .string ["id", "method", "jsonrpc"]

/-- `params` and `result`: a string as a member, an object in the text. -/
def body : MessageKind → Field
  | .req => ⟨str "params", .string⟩
  | .ack => ⟨str "result", .string⟩

/-- The members `ACK_DUMP_END` writes, which are not read. -/
def status : MessageKind → List Field
  | .req => []
  | .ack => [⟨str "code", .int⟩, ⟨str "message", .string⟩]

end MessageKind

/-- A struct of `rpc_tx.h` with its two functions. -/
structure MessageType where
  kind : MessageKind
  /-- the members in the struct itself -/
  own : List Field
  /-- `PARSE_JSON` -/
  parsed : List Field
  /-- `TO_PARAMS` or `TO_RESULT` -/
  toBody : List Field
  /-- `TO_JSON` -/
  toObject : List Field
  deriving DecidableEq

namespace MessageType

/-- All members. -/
def declared (t : MessageType) : List Field :=
  t.kind.regular ++ t.kind.body :: t.kind.status ++ t.own

/-- The members are read and written under `params` or `result`, in the order they are declared in. -/
def plain (kind : MessageKind) (own : List Field) : MessageType := ⟨kind, own, own, own, []⟩

/-- The members are read under `params` and written into the object itself. -/
def onTop (own : List Field) : MessageType := ⟨.req, own, own, [], own⟩

/-- The last two members of most requests. -/
def utxoFields : List Field := fields .bool ["isFindUtxo"] ++ fields .string ["txInfo"]

def deployContractReq : MessageType :=
  plain .req (fields .string ["addr", "nContractType", "info", "contract", "data", "pubstr"] ++ utxoFields)

def callContractReq : MessageType :=
  let names := ["addr", "deployer", "deployutxo", "args", "pubstr", "tip", "money", "istochain"]
  let used := fields .string names ++ utxoFields ++ fields .string ["contractAddress"]
  ⟨.req, fields .string (names ++ ["contractAddress"]) ++ utxoFields, used, used, []⟩

def txReq : MessageType :=
  plain .req (fields .strings ["fromAddr"] ++ fields .addrValues ["toAddr"] ++ utxoFields)

def getStakeReq : MessageType :=
  plain .req (fields .string ["fromAddr", "stakeAmount", "PledgeType", "commissionRate"] ++ utxoFields)

def getUnStakeReq : MessageType := plain .req (fields .string ["fromAddr", "utxoHash"] ++ utxoFields)

def getInvestReq : MessageType :=
  plain .req (fields .string ["fromAddr", "toAddr", "investAmount", "investType"] ++ utxoFields)

def getDisinvestreq : MessageType :=
  plain .req (fields .string ["fromAddr", "toAddr", "utxoHash"] ++ utxoFields)

def getBonusReq : MessageType := plain .req (fields .string ["Addr"] ++ utxoFields)

def getRatesInfoReq : MessageType := plain .req []

def getRatesInfoAck : MessageType :=
  plain .ack (fields .string
    ["TotalCirculatingSupply", "TotalBurn", "TotalStaked", "StakingRate", "CurrentAPR"])

def getStakeutxoReq : MessageType := plain .req (fields .string ["fromAddr"])

def getDisinvestutxoReq : MessageType := plain .req (fields .string ["fromAddr", "toAddr"])

def confirmTransactionReq : MessageType := plain .req (fields .string ["txhash", "height"])

def getTxInfoReq : MessageType := onTop (fields .string ["txhash"])

def getTxInfoAck : MessageType :=
  let tx := fields .string ["tx"]
  let blockheight := fields .uint64 ["blockheight"]
  let blockhash := fields .string ["blockhash"]
  ⟨.ack, tx ++ blockheight ++ blockhash, tx ++ blockhash ++ blockheight, tx ++ blockhash ++ blockheight, []⟩

def getAllbonusInfoReq : MessageType := plain .req []

def getAllStakeNodeListReq : MessageType := plain .req []

/-- The list is written and not read. -/
def getAllStakeNodeListAck : MessageType :=
  ⟨.ack, fields .json ["list"], [], fields .json ["list"], []⟩

def getblocknumberReq : MessageType := plain .req []

def getblocknumberAck : MessageType := plain .ack (fields .string ["top"])

def getversionReq : MessageType := plain .req []

def getversionAck : MessageType :=
  plain .ack (fields .string ["netVersion", "clientVersion", "configVersion", "dbVersion"])

def balanceReq : MessageType := plain .req (fields .string ["addr"])

def balanceAck : MessageType := plain .ack (fields .string ["balance", "addr"])

def getblocktransactioncountReq : MessageType := plain .req (fields .string ["blockHash"])

def getblocktransactioncountAck : MessageType := plain .ack (fields .string ["txCount"])

def getaccountsReq : MessageType := plain .req []

def getaccountsAck : MessageType := plain .ack (fields .strings ["acccountlist"])

def getchainidReq : MessageType := plain .req []

def getchainidAck : MessageType := plain .ack (fields .string ["chainId"])

def getpeerlistReq : MessageType := plain .req []

def getTransactionInfoReq : MessageType := onTop (fields .string ["txHash"])

def getBlockInfoByHashReq : MessageType := onTop (fields .string ["blockHash"])

def getBlockInfoByHeightReq : MessageType := onTop (fields .string ["beginHeight", "endHeight"])

def rpcAck : MessageType := plain .ack (fields .string ["txHash"])

def txAck : MessageType :=
  plain .ack (fields .string ["txJson", "height", "vrfJson", "txType", "time", "gas"])

def contractAck : MessageType := plain .ack (fields .string ["contractJs", "txJson"])

def getDelegateReq : MessageType := onTop (fields .string ["addr"])

def getDelegateAck : MessageType := plain .ack (fields .stringMap ["info"])

/-- The types with both functions. -/
def all : List MessageType :=
  [deployContractReq, callContractReq, txReq, getStakeReq, getUnStakeReq, getInvestReq, getDisinvestreq,
    getBonusReq, getRatesInfoReq, getRatesInfoAck, getStakeutxoReq, getDisinvestutxoReq,
    confirmTransactionReq, getTxInfoReq, getTxInfoAck, getAllbonusInfoReq, getAllStakeNodeListReq,
    getAllStakeNodeListAck, getblocknumberReq, getblocknumberAck, getversionReq, getversionAck, balanceReq,
    balanceAck, getblocktransactioncountReq, getblocktransactioncountAck, getaccountsReq, getaccountsAck,
    getchainidReq, getchainidAck, getpeerlistReq, getTransactionInfoReq, getBlockInfoByHashReq,
    getBlockInfoByHeightReq, rpcAck, txAck, contractAck, getDelegateReq, getDelegateAck]

/-! ### Writing -/

variable {φ : Type}

/-- The assignments of members to an object. -/
def entries (v : Message φ) (fs : List Field) : List (Str × Json φ) :=
  fs.map fun f => (f.name, f.type.toJson (v f))

/-- The object `_paseToString` dumps. -/
def toJson (t : MessageType) (v : Message φ) : Except Str (Json φ) := do
  let jsObject ← Json.null.setAll (entries v (t.kind.regular ++ t.toObject))
  let jsBody ← Json.null.setAll (entries v (t.toBody ++ t.kind.status))
  jsObject.set t.kind.body.name jsBody

/-- `_paseToString`. -/
def paseToString (lib : JsonLib φ) (t : MessageType) (v : Message φ) : Except Str Str :=
  match t.toJson v with
  | .ok jsObject => lib.dump jsObject
  | .error _ => .ok []

/-! ### Reading -/

/-- What is done about a missing key: it is set to something for as long as the object has no entry
    for `isFindUtxo` and `txInfo`, whichever key it is. -/
def fillMissing (js : Json φ) (key : Str) : Except Str (Json φ) :=
  if !js.contains (str "isFindUtxo") then js.set key (.boolean false)
  else if !js.contains (str "txInfo") then js.set key (.string [])
  else .error (str "not found key:" ++ key)

/-- `PARSE_REGULAR_JSON` and `PARSE_JSON`, and the loop of `tx_req`, where a missing key is only logged.
    The message comes along as far as it is read. -/
def parseField (lib : JsonLib φ) (f : Field) (js : Json φ) (w : Message φ) :
    Except (Str × Message φ) (Json φ × Message φ) :=
  match js.find f.name with
  | some j =>
    match f.type.getTo lib j (w f) with
    | .ok x => .ok (js, Function.update w f x)
    | .error (what, x) => .error (what, Function.update w f x)
  | none =>
    if f.type = .addrValues then .ok (js, w)
    else
      match fillMissing js f.name with
      | .ok js => .ok (js, w)
      | .error what => .error (what, w)

/-- One macro after the other. -/
def parseFields (lib : JsonLib φ) : List Field → Json φ → Message φ →
    Except (Str × Message φ) (Json φ × Message φ)
  | [], js, w => .ok (js, w)
  | f :: rest, js, w => do
    let (js, w) ← parseField lib f js w
    parseFields lib rest js w

/-- `PARSE_PARAMS`: the object of the members, which may come as a text of its own. Of the exceptions of
    `parse` the one for a text that is no JSON is caught here. -/
def parseParams (lib : JsonLib φ) (key : Str) (jsObject : Json φ) : Except Str (Json φ) :=
  match jsObject.find key with
  | some (.string s) =>
    match lib.parse s with
    | .ok js => .ok js
    | .error (true, what) => .error (str "parse fail for key " ++ key ++ str ": " ++ what)
    | .error (false, what) => .error what
  | some (.object es) => .ok (.object es)
  | some _ => .error (str "unsupported type for key " ++ key)
  | none => fillMissing .null key

/-- The body of `_paseFromJson` up to `return "OK"`. -/
def parse (lib : JsonLib φ) (t : MessageType) (w : Message φ) (json : Str) :
    Except (Str × Message φ) (Message φ) := do
  let jsObject ← (lib.parse json).mapError fun e => (e.2, w)
  let (jsObject, w) ← parseFields lib t.kind.regular jsObject w
  let jsParams ← (parseParams lib t.kind.body.name jsObject).mapError (·, w)
  let (_, w) ← parseFields lib t.parsed jsParams w
  .ok w

/-- `_paseFromJson` on a message: the text it returns, and the message it leaves. -/
def paseFromJson (lib : JsonLib φ) (t : MessageType) (w : Message φ) (json : Str) : Str × Message φ :=
  match parse lib t w json with
  | .ok w => (str "OK", w)
  | .error r => r

/-! ### What is read from what was written -/

end MessageType

namespace FieldType
variable {φ : Type}

theorem readAddrValues_map : ∀ (l : List (Str × Str)) (m : SortedMap Str Str),
    readAddrValues (l.map (addrValue : Str × Str → Json φ)) m = .ok (l.foldl (fun m e => m.upsert e.1 fun _ => e.2) m)
  | [], _ => rfl
  | e :: l, m => by
    rw [List.map_cons, List.foldl_cons, ← readAddrValues_map l, readAddrValues]
    have haddr : stringAt (addrValue e : Json φ) (str "addr") = .ok e.1 := by
      simp [stringAt, addrValue, Json.find, Json.getString]
    have hvalue : stringAt (addrValue e : Json φ) (str "value") = .ok e.2 := by
      have hne : str "addr" ≠ str "value" := by decide
      simp [stringAt, addrValue, Json.find, Json.getString, hne]
    rw [haddr, hvalue]
    rfl

theorem ofInt_toNat (n : UInt64) : UInt64.ofInt n.toNat = n := by
  have hlt : (n.toNat : ℤ) < 2 ^ 64 := by exact_mod_cast n.toNat_lt
  rw [UInt64.ofInt, Int.emod_eq_of_lt (Int.natCast_nonneg _) hlt, Int.toNat_natCast, UInt64.ofNat_toNat]

/-- What was written into an empty field is read back. -/
theorem getTo_toJson (lib : JsonLib φ) (t : FieldType) (x old : t.Value φ)
    (hold : t = .addrValues → old = t.initial) : t.getTo lib (t.toJson x) old = .ok x := by
  cases t with
  | string => rfl
  | bool => rfl
  | int => exact congrArg Except.ok (Int32.ofInt_toInt x)
  | uint64 => exact congrArg Except.ok (ofInt_toNat x)
  | strings =>
    rw [getTo, toJson, Json.getStrings_ofStrings]
    rfl
  | stringMap =>
    rw [getTo, toJson, Json.getStringMap_ofStringMap]
    rfl
  | addrValues =>
    have hitems : (toJson .addrValues x : Json φ).items = x.entries.map addrValue := by
      rw [toJson]
      split_ifs with h
      · rw [h]; rfl
      · rfl
    rw [getTo, hitems, readAddrValues_map, hold rfl]
    exact congrArg Except.ok x.foldl_upsert_entries
  | json => rfl

end FieldType

namespace MessageType
variable {φ : Type} {lib : JsonLib φ} {t : MessageType} {v w : Message φ}

/-- `js` has the members of `fs` as `v` has them. -/
def Written (fs : List Field) (v : Message φ) (js : Json φ) : Prop :=
  ∀ f ∈ fs, js.find f.name = some (f.type.toJson (v f))

/-- Members that were written are all read back, and no other member changes. -/
theorem parseFields_written (lib : JsonLib φ) : ∀ {fs : List Field} {js : Json φ} {w : Message φ}, fs.Nodup →
    Written fs v js → (∀ f ∈ fs, f.type = .addrValues → w f = f.type.initial) →
    ∃ w', parseFields lib fs js w = .ok (js, w') ∧ (∀ f ∈ fs, w' f = v f) ∧ ∀ f ∉ fs, w' f = w f
  | [], js, w, _, _, _ => ⟨w, rfl, by simp, by simp⟩
  | f :: rest, js, w, hnodup, hjs, hw => by
    obtain ⟨hf, hnodup⟩ := List.nodup_cons.mp hnodup
    have hfield : parseField lib f js w = .ok (js, Function.update w f (v f)) := by
      rw [parseField, hjs f List.mem_cons_self]
      simp only
      rw [FieldType.getTo_toJson lib f.type (v f) (w f) (hw f List.mem_cons_self)]
    have hne : ∀ {g}, g ∈ rest → g ≠ f := fun hg h => hf (h ▸ hg)
    obtain ⟨w', hrest, hin, hout⟩ := parseFields_written lib (w := Function.update w f (v f)) hnodup
      (fun g hg => hjs g (List.mem_cons_of_mem _ hg))
      (fun g hg htype => by
        rw [Function.update_of_ne (hne hg)]
        exact hw g (List.mem_cons_of_mem _ hg) htype)
    refine ⟨w', by rw [parseFields, hfield]; exact hrest, fun g hg => ?_, fun g hg => ?_⟩
    · rcases List.mem_cons.mp hg with rfl | hg
      · rw [hout g hf, Function.update_self]
      · exact hin g hg
    · rw [List.mem_cons, not_or] at hg
      rw [hout g hg.2, Function.update_of_ne hg.1]

/-- Members of different names, assigned to null, are all there; without any it stays null. -/
theorem setAll_entries {fs : List Field} (h : (fs.map Field.name).Nodup) : ∃ js : Json φ,
    Json.null.setAll (entries v fs) = .ok js ∧ js.Assignable ∧ Written fs v js
      ∧ (fs = [] → js = .null) ∧ (fs ≠ [] → ∃ es, js = .object es) := by
  have hkeys : (entries v fs).map Prod.fst = fs.map Field.name := by
    rw [entries, List.map_map]
    rfl
  obtain ⟨js, hall, hjs, hin, -⟩ := Json.setAll_spec (entries v fs) (j := .null) trivial (hkeys ▸ h)
  refine ⟨js, hall, hjs, fun f hf => hin _ (List.mem_map_of_mem hf), ?_, fun hne => ?_⟩
  · rintro rfl
    exact (Except.ok.inj hall).symm
  · exact Json.setAll_isObject (j := .null) trivial (by simpa [entries] using hne) hall

/-! ### Round trips -/

/-- The lists of a message type fit together: no name is used twice, only members are written and read,
    and of what is written under `params` or `result` nothing is missing that is read there. -/
def Consistent (t : MessageType) : Prop :=
  (t.declared.map Field.name).Nodup ∧ t.own.Nodup
    ∧ (t.parsed.Nodup ∧ ∀ f ∈ t.parsed, f ∈ t.own)
    ∧ ((t.toBody.map Field.name).Nodup ∧ ∀ f ∈ t.toBody, f ∈ t.own)
    ∧ ((t.toObject.map Field.name).Nodup ∧ ∀ f ∈ t.toObject, f ∈ t.own)
    ∧ (t.toBody ++ t.kind.status ≠ [] → ∀ f ∈ t.parsed, f ∈ t.toBody)
    ∧ ∀ f ∈ t.own, f ∉ t.parsed → f.type.isClass

instance (t : MessageType) : Decidable t.Consistent := inferInstanceAs (Decidable (_ ∧ _))

set_option maxRecDepth 4000 in
theorem all_consistent : ∀ t ∈ all, t.Consistent := by decide

namespace Consistent
variable (h : t.Consistent)
include h

/-- Members of the macros and members of the struct have different names. -/
theorem own_ne {f g : Field} (hf : f ∈ t.kind.regular ++ t.kind.body :: t.kind.status) (hg : g ∈ t.own) :
    f.name ≠ g.name := by
  have hnames := h.1
  rw [declared, List.map_append, List.nodup_append] at hnames
  exact hnames.2.2 _ (List.mem_map_of_mem hf) _ (List.mem_map_of_mem hg)

theorem regular_toObject_nodup : ((t.kind.regular ++ t.toObject).map Field.name).Nodup := by
  rw [List.map_append, List.nodup_append]
  refine ⟨by cases t.kind <;> decide, h.2.2.2.2.1.1, fun a ha b hb => ?_⟩
  obtain ⟨f, hf, rfl⟩ := List.mem_map.mp ha
  obtain ⟨g, hg, rfl⟩ := List.mem_map.mp hb
  exact h.own_ne (List.mem_append_left _ hf) (h.2.2.2.2.1.2 g hg)

theorem toBody_status_nodup : ((t.toBody ++ t.kind.status).map Field.name).Nodup := by
  rw [List.map_append, List.nodup_append]
  refine ⟨h.2.2.2.1.1, by cases t.kind <;> decide, fun a ha b hb => ?_⟩
  obtain ⟨f, hf, rfl⟩ := List.mem_map.mp ha
  obtain ⟨g, hg, rfl⟩ := List.mem_map.mp hb
  exact (h.own_ne (List.mem_append_right _ (List.mem_cons_of_mem _ hg)) (h.2.2.2.1.2 f hf)).symm

/-- A message is written: its regular members, and under `params` or `result` an object of the others,
    or null if there are none. -/
theorem toJson_spec (v : Message φ) : ∃ js body, t.toJson v = .ok js ∧ Written t.kind.regular v js
    ∧ js.find t.kind.body.name = some body ∧ Written t.toBody v body
    ∧ (t.toBody ++ t.kind.status = [] → body = .null)
    ∧ (t.toBody ++ t.kind.status ≠ [] → ∃ es, body = .object es) := by
  obtain ⟨js, hset, hjs, hregular, -, -⟩ := setAll_entries (v := v) h.regular_toObject_nodup
  obtain ⟨body, hset', -, hbody, hnull, hobj⟩ := setAll_entries (v := v) h.toBody_status_nodup
  obtain ⟨js', hset'', -, -, hfind⟩ := Json.set_spec hjs t.kind.body.name body
  refine ⟨js', body, ?_, fun f hf => ?_, by rw [hfind, if_pos rfl],
    fun f hf => hbody f (List.mem_append_left _ hf), hnull, hobj⟩
  · rw [toJson, hset, hset']
    exact hset''
  · have hne : f.name ≠ t.kind.body.name := by
      revert hf
      cases t.kind <;> revert f <;> decide
    rw [hfind, if_neg hne]
    exact hregular f (List.mem_append_left _ hf)

end Consistent

/-- The bool and the integers of a message may have any value before the first assignment. -/
def Fresh (w : Message φ) : Prop := ∀ f : Field, f.type.isClass → w f = f.type.initial

/-- What is read when the object under `params` or `result` is there. -/
theorem paseFromJson_object (h : t.Consistent) (hw : Fresh w) {json : Str} {js : Json φ}
    {es : List (Str × Json φ)} (hparse : lib.parse json = .ok js) (hregular : Written t.kind.regular v js)
    (hbody : js.find t.kind.body.name = some (.object es)) (hes : Written t.parsed v (.object es)) :
    ∃ w', t.paseFromJson lib w json = (str "OK", w') ∧ (∀ f ∈ t.kind.regular ++ t.parsed, w' f = v f)
      ∧ ∀ f ∉ t.kind.regular ++ t.parsed, w' f = w f := by
  have hreg : t.kind.regular.Nodup := by cases t.kind <;> decide
  have hown : ∀ f ∈ t.parsed, f ∉ t.kind.regular := fun f hf hf' =>
    h.own_ne (List.mem_append_left _ hf') (h.2.2.1.2 f hf) rfl
  obtain ⟨w₁, hrun₁, hin₁, hout₁⟩ := parseFields_written lib (w := w) hreg hregular
    (fun f _ htype => hw f (by rw [htype]; rfl))
  obtain ⟨w₂, hrun₂, hin₂, hout₂⟩ := parseFields_written lib (w := w₁) h.2.2.1.1 hes
    (fun f hf htype => by
      rw [hout₁ f (hown f hf)]
      exact hw f (by rw [htype]; rfl))
  refine ⟨w₂, ?_, fun f hf => ?_, fun f hf => ?_⟩
  · have hrun : parse lib t w json = .ok w₂ := by
      rw [parse, hparse]
      simp only [Except.mapError, bind, Except.bind, hrun₁, parseParams, hbody, hrun₂]
    rw [paseFromJson, hrun]
  · rcases List.mem_append.mp hf with hf | hf
    · rw [hout₂ f (fun hf' => hown f hf' hf), hin₁ f hf]
    · exact hin₂ f hf
  · rw [List.mem_append, not_or] at hf
    rw [hout₂ f hf.2, hout₁ f hf.1]

/-- What is read when there is null under `params` or `result`. -/
theorem paseFromJson_null {json : Str} {js : Json φ} (hw : Fresh w) (hparse : lib.parse json = .ok js)
    (hregular : Written t.kind.regular v js) (hbody : js.find t.kind.body.name = some .null) :
    (t.paseFromJson lib w json).1 = str "unsupported type for key " ++ t.kind.body.name := by
  have hreg : t.kind.regular.Nodup := by cases t.kind <;> decide
  obtain ⟨w₁, hrun₁, -, -⟩ := parseFields_written lib (w := w) hreg hregular
    (fun f _ htype => hw f (by rw [htype]; rfl))
  have hrun : parse lib t w json = .error (str "unsupported type for key " ++ t.kind.body.name, w₁) := by
    rw [parse, hparse]
    simp only [Except.mapError, bind, Except.bind, hrun₁, parseParams, hbody]
  rw [paseFromJson, hrun]

/-- `w` has the members of `v`, apart from the code and the message of an acknowledgement. -/
def Restores (t : MessageType) (v w : Message φ) : Prop :=
  ∀ f ∈ t.declared, f ∉ t.kind.status → w f = v f

/-- The object that is dumped for `v` is read back from its text. -/
def ReadsBack (lib : JsonLib φ) (t : MessageType) (v : Message φ) : Prop :=
  ∀ js, t.toJson v = .ok js → ∃ json, lib.dump js = .ok json ∧ lib.parse json = .ok js

/-- Reading the text of `v` into a new message succeeds and gives `v`. -/
def RoundTrips (lib : JsonLib φ) (t : MessageType) (v : Message φ) : Prop :=
  ∀ w, Fresh w → ∃ json, t.paseToString lib v = .ok json ∧ (t.paseFromJson lib w json).1 = str "OK"
    ∧ t.Restores v (t.paseFromJson lib w json).2

/-- A request has parameters under `params`, the raw string of the parameters or the result is empty, and
    so is every member that is not read. -/
def Whole (t : MessageType) (v : Message φ) : Prop :=
  (t.kind = .req → t.toBody ≠ []) ∧ v t.kind.body = t.kind.body.type.initial
    ∧ ∀ f ∈ t.own, f ∉ t.parsed → v f = f.type.initial

/-- Neither the raw string nor a member that is passed over is read. -/
theorem Consistent.not_read (h : t.Consistent) :
    (t.kind.body ∈ t.declared ∧ t.kind.body ∉ t.kind.status ∧ t.kind.body ∉ t.kind.regular ++ t.parsed)
      ∧ ∀ f ∈ t.own, f ∈ t.declared ∧ f ∉ t.kind.status ∧ f ∉ t.kind.regular := by
  refine ⟨⟨by simp [declared], by cases t.kind <;> decide, fun hf => ?_⟩, fun f hf => ?_⟩
  · rcases List.mem_append.mp hf with hf | hf
    · revert hf
      cases t.kind <;> decide
    · exact h.own_ne (List.mem_append_right _ List.mem_cons_self) (h.2.2.1.2 _ hf) rfl
  · have hne := fun g hg => h.own_ne (f := g) hg hf
    refine ⟨by simp [declared, hf], fun hf' => ?_, fun hf' => ?_⟩
    · exact hne f (List.mem_append_right _ (List.mem_cons_of_mem _ hf')) rfl
    · exact hne f (List.mem_append_left _ hf') rfl

/-- The message that is read has everything if and only if what is not read is empty in the original. -/
theorem Consistent.restores_iff (h : t.Consistent) {w' : Message φ} (hw : Fresh w)
    (hin : ∀ f ∈ t.kind.regular ++ t.parsed, w' f = v f)
    (hout : ∀ f ∉ t.kind.regular ++ t.parsed, w' f = w f) :
    t.Restores v w' ↔ v t.kind.body = t.kind.body.type.initial
      ∧ ∀ f ∈ t.own, f ∉ t.parsed → v f = f.type.initial := by
  obtain ⟨⟨hdecl, hstatus, hbody⟩, hown⟩ := h.not_read
  have hkept : w' t.kind.body = t.kind.body.type.initial := by
    rw [hout _ hbody]
    exact hw _ (by cases t.kind <;> rfl)
  have hunread : ∀ f ∈ t.own, f ∉ t.parsed → w' f = f.type.initial := fun f hf hf' => by
    rw [hout f (by rw [List.mem_append, not_or]; exact ⟨(hown f hf).2.2, hf'⟩)]
    exact hw f (h.2.2.2.2.2.2 f hf hf')
  constructor
  · intro hres
    refine ⟨by rw [← hres _ hdecl hstatus, hkept], fun f hf hf' => ?_⟩
    rw [← hres f (hown f hf).1 (hown f hf).2.1, hunread f hf hf']
  · rintro ⟨hbody', hrest⟩ f hf hnot
    rw [declared, List.append_assoc, List.cons_append, List.mem_append, List.mem_cons, List.mem_append] at hf
    rcases hf with hf | rfl | hf | hf
    · exact hin f (List.mem_append_left _ hf)
    · rw [hkept, hbody']
    · exact absurd hf hnot
    · by_cases hf' : f ∈ t.parsed
      · exact hin f (List.mem_append_right _ hf')
      · rw [hunread f hf hf', hrest f hf hf']

/-- A message comes back from its text exactly if it is a whole one. -/
theorem roundTrips_iff_whole {t : MessageType} (ht : t ∈ all) (lib : JsonLib φ) (v : Message φ)
    (hlib : ReadsBack lib t v) : RoundTrips lib t v ↔ Whole t v := by
  have h := all_consistent t ht
  obtain ⟨js, body, hjs, hregular, hfind, hbody, hnull, hobj⟩ := h.toJson_spec v
  obtain ⟨json, hdump, hparse⟩ := hlib js hjs
  have hstring : t.paseToString lib v = .ok json := by rw [paseToString, hjs]; exact hdump
  have hnew : Fresh (fun f => f.type.initial : Message φ) := fun _ _ => rfl
  by_cases hempty : t.toBody ++ t.kind.status = []
  · -- null is written, and reading refuses it
    rw [hnull hempty] at hfind
    constructor
    · intro hround
      obtain ⟨json', hjson', hok, -⟩ := hround _ hnew
      obtain rfl : json = json' := Except.ok.inj (hstring.symm.trans hjson')
      rw [paseFromJson_null hnew hparse hregular hfind] at hok
      refine absurd hok ?_
      cases t.kind <;> decide
    · rintro ⟨hreq, -, -⟩
      obtain ⟨hbody, hstatus⟩ := List.append_eq_nil_iff.mp hempty
      refine absurd hbody (hreq ?_)
      revert hstatus
      cases t.kind <;> decide
  · obtain ⟨es, rfl⟩ := hobj hempty
    have hes : Written t.parsed v (.object es) := fun f hf => hbody f (h.2.2.2.2.2.1 hempty f hf)
    have hreq : t.kind = .req → t.toBody ≠ [] := fun hk htoBody => by
      rw [htoBody, hk] at hempty
      exact hempty rfl
    constructor
    · intro hround
      obtain ⟨json', hjson', -, hres⟩ := hround _ hnew
      obtain rfl : json = json' := Except.ok.inj (hstring.symm.trans hjson')
      obtain ⟨w', hread, hin, hout⟩ := paseFromJson_object h hnew hparse hregular hfind hes
      rw [hread, h.restores_iff hnew hin hout] at hres
      exact ⟨hreq, hres⟩
    · rintro ⟨-, hwhole⟩ w hw
      obtain ⟨w', hread, hin, hout⟩ := paseFromJson_object h hw hparse hregular hfind hes
      refine ⟨json, hstring, by rw [hread], ?_⟩
      rw [hread, h.restores_iff hw hin hout]
      exact hwhole

/-- A message of strings. -/
def ofStrings (values : List (Str × Str)) : Message φ := fun f =>
  match f.type with
  | .string => ((values.find? fun e => e.1 = f.name).map Prod.snd).getD []
  | type => type.initial

/-- Dump and parse of one document. -/
def oneDocument (text : Str) (document : Json φ) : JsonLib φ where
  parse s := if s = text then .ok document else .error (true, [])
  dump _ := .ok text
  toInt _ := 0
  toUInt64 _ := 0

/-- The text of a request for a balance. -/
def balanceText : Str :=
  str "\x7b\"id\":\"1\",\"jsonrpc\":\"2.0\",\"params\":\x7b\"addr\":\"0xa0\"\x7d\x7d"

/-- The document of that text. -/
def balanceDocument : Json ℚ :=
  .object [(str "id", .string (str "1")), (str "jsonrpc", .string (str "2.0")),
    (str "params", .object [(str "addr", .string (str "0xa0"))])]

/-- A request for a balance comes back. -/
theorem roundTrips_iff_whole_balance :
    RoundTrips (oneDocument balanceText balanceDocument) balanceReq
      (ofStrings [(str "id", str "1"), (str "jsonrpc", str "2.0"), (str "addr", str "0xa0")]) := by
  refine (roundTrips_iff_whole (by decide) _ _ fun js hjs => ⟨balanceText, rfl, ?_⟩).mpr
    ⟨fun _ => by decide, rfl, fun f hf hf' => absurd hf hf'⟩
  obtain rfl : balanceDocument = js := Except.ok.inj hjs
  rfl

/-- The text of a request for the version. -/
def versionText : Str := str "\x7b\"id\":\"1\",\"jsonrpc\":\"2.0\",\"params\":null\x7d"

/-- The document of that text. -/
def versionDocument : Json ℚ :=
  .object [(str "id", .string (str "1")), (str "jsonrpc", .string (str "2.0")), (str "params", .null)]

/-- The request for the version has no parameters; null is written for them, and null is refused. -/
theorem version_request_refused : ∃ (lib : JsonLib ℚ) (t : MessageType) (v : Message ℚ),
    t ∈ all ∧ ReadsBack lib t v ∧ ¬ RoundTrips lib t v := by
  refine ⟨oneDocument versionText versionDocument, getversionReq,
    ofStrings [(str "id", str "1"), (str "jsonrpc", str "2.0")], by decide, fun js hjs => ?_, fun h => ?_⟩
  · obtain rfl : versionDocument = js := Except.ok.inj hjs
    exact ⟨versionText, rfl, rfl⟩
  · obtain ⟨json, hjson, hok, -⟩ := h (fun f => f.type.initial) fun _ _ => rfl
    obtain rfl : versionText = json := Except.ok.inj hjson
    exact absurd hok (by decide)

end MessageType

end Tfs.Api
