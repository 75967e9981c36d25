import Tfs.Lib.Decimal
import Tfs.Db.MultiRead

/-! The key schema of the chain database (`db/db_api.cpp`).

    A table is one family of RocksDB keys: the text of the table followed by its arguments. The one
    exception is the value of an unspent output, whose key starts with the address itself. The setters
    and getters are listed with the key each builds, in the order of the source. -/

namespace Tfs.Db

/-! ### The texts of the tables -/

def kBlockHash2BlockHeightKey : Str := str "blkhs2blkht_"
def kBlockHeight2BlockHashKey : Str := str "blkht2blkhs_"
def kBlockHeight2SumHash : Str := str "blkht2sumhs_"
def kTopThousandSumhashKey : Str := str "topthousandsumhs_"
def kBlockHeight2thousandSumHash : Str := str "thousandsblkht2sumhs_"
def kBlockHash2BlcokRawKey : Str := str "blkhs2blkraw_"
def kBlockTopKey : Str := str "blktop_"
def kTransactionHash2TransactionRawKey : Str := str "txhs2txraw_"
def kTransactionHash2BlockHashKey : Str := str "txhs2blkhs_"
def kAddress2TransactionRawKey : Str := str "addr2txraw_"
def kAddress2BlcokHashKey : Str := str "addr2blkhs_"
def kAddress2TransactionTopKey : Str := str "addr2txtop_"
def kAddress2BalanceKey : Str := str "addr2bal_"
def kMutliSignKey : Str := str "mutlisign_"
def kBonusUtxoKey : Str := str "bonusutxo_"
def kBonusAddrKey : Str := str "bonusaddr_"
def kBonusAddr2InvestAddrKey : Str := str "bonusaddr2investaddr_"
def kInvestAddr2BonusAddrKey : Str := str "investaddr2bonusaddr_"
def kBonusAddrInvestAddr2InvestAddrUtxo : Str := str "invest_nodeaddr2investaddrutxo_"
def kInvestUtxoKey : Str := str "investutxo_"
def kM2 : Str := str "M2_"
def kDM : Str := str "DM_"
def kTotalInvestAmount : Str := str "totalinvestamount_"
def kInitVersionKey : Str := str "initver_"
def kSignNumberKey : Str := str "signnumber_"
def kBlockNumberKey : Str := str "blocknumber_"
def kSignAddrKey : Str := str "signaddr_"
def kburnAmountKey : Str := str "burnamount_"
def kEvmAllDeployerAddr : Str := str "allevmdeployeraddr_"
def kDeployerAddr2ContractAddr : Str := str "deployeraddr2contractaddr_"
def kContractAddr2ContractCode : Str := str "contractaddr2contractcode_"
def kContractAddr2DeployUtxo : Str := str "contractaddr2deployutxo_"
def kContractMptK : Str := str "contractmpt_"

/-! ### The arguments of a key -/

/-- A hexadecimal digit, of either case. -/
def isHexByte (b : UInt8) : Bool := isDigitByte b || (97 ≤ b && b ≤ 102) || (65 ≤ b && b ≤ 70)

/-- A text of `n` hexadecimal digits. -/
abbrev HexText (n : ℕ) := {s : Str // s.length = n ∧ ∀ b ∈ s, isHexByte b}

/-- The text of an address. -/
abbrev AddressText := HexText 40

/-- The text of a block or transaction hash. -/
abbrev HashText := HexText 64

/-- How the arguments follow the table's text. -/
inductive Shape where
  | nothing | hash | height | address | addressNum | addressPair | periodAddress | utxo | free
  deriving DecidableEq, Repr

/-- The arguments of a key of this shape. -/
inductive KeyArg : Shape → Type where
  | nothing : KeyArg .nothing
  | hash (h : HashText) : KeyArg .hash
  | height (n : ℕ) : KeyArg .height
  | address (a : AddressText) : KeyArg .address
  | addressNum (a : AddressText) (n : ℕ) : KeyArg .addressNum
  | addressPair (a b : AddressText) : KeyArg .addressPair
  | periodAddress (n : ℕ) (a : AddressText) : KeyArg .periodAddress
  | utxo (a : AddressText) (h : HashText) : KeyArg .utxo
  | free (s : Str) : KeyArg .free
  deriving DecidableEq

/-- The arguments as text. -/
def KeyArg.text {shape : Shape} : KeyArg shape → Str
  | .nothing => []
  | .hash h => h.1
  | .height n => decimal n
  | .address a => a.1
  | .addressNum a n => a.1 ++ [underline] ++ decimal n
  | .addressPair a b => a.1 ++ [underline] ++ b.1
  | .periodAddress n a => decimal n ++ a.1
  | .utxo a h => a.1 ++ [underline] ++ h.1
  | .free s => s

/-- The tables. -/
inductive Table where
  | blockHeightByBlockHash | blockHashByBlockHeight | blockByBlockHash | sumHashByHeight
  | checkBlockHashsByBlockHeight | topThousandSumhash | blockTop | utxoHashsByAddress
  | utxoValueByUtxoHashs | transactionByHash | blockHashByTransactionHash | transactionByAddress
  | blockHashByAddress | transactionTopByAddress | balanceByAddress | stakeAddresses
  | mutliSignAddresses | stakeAddressUtxo | mutliSignAddressUtxo | bonusAddr
  | investAddrByBonusAddr | bonusAddrByInvestAddr | bonusAddrInvestAddrUtxoByBonusAddr
  | bonusUtxoByPeriod | investUtxoByPeriod | evmDeployerAddr | contractAddrByDeployerAddr
  | contractCodeByContractAddr | contractDeployUtxoByContractAddr | latestUtxoByContractAddr
  | mptValueByMptKey | signNumberByPeriod | blockNumberByPeriod | signAddrByPeriod
  | burnAmountByPeriod | dm | totalInvestAmount | totalCirculation | initVer
  deriving DecidableEq, Repr

namespace Table

/-- All tables. -/
def all : List Table :=
  [.blockHeightByBlockHash, .blockHashByBlockHeight, .blockByBlockHash, .sumHashByHeight,
    .checkBlockHashsByBlockHeight, .topThousandSumhash, .blockTop, .utxoHashsByAddress,
    .utxoValueByUtxoHashs, .transactionByHash, .blockHashByTransactionHash, .transactionByAddress,
    .blockHashByAddress, .transactionTopByAddress, .balanceByAddress, .stakeAddresses,
    .mutliSignAddresses, .stakeAddressUtxo, .mutliSignAddressUtxo, .bonusAddr,
    .investAddrByBonusAddr, .bonusAddrByInvestAddr, .bonusAddrInvestAddrUtxoByBonusAddr,
    .bonusUtxoByPeriod, .investUtxoByPeriod, .evmDeployerAddr, .contractAddrByDeployerAddr,
    .contractCodeByContractAddr, .contractDeployUtxoByContractAddr, .latestUtxoByContractAddr,
    .mptValueByMptKey, .signNumberByPeriod, .blockNumberByPeriod, .signAddrByPeriod,
    .burnAmountByPeriod, .dm, .totalInvestAmount, .totalCirculation, .initVer]

instance : Fintype Table := ⟨⟨all, by decide +kernel⟩, fun t => by cases t <;> decide +kernel⟩

/-- The text in front of the arguments. -/
def head : Table → Str
  | .blockHeightByBlockHash => kBlockHash2BlockHeightKey
  | .blockHashByBlockHeight => kBlockHeight2BlockHashKey
  | .blockByBlockHash => kBlockHash2BlcokRawKey
  | .sumHashByHeight => kBlockHeight2SumHash
  | .checkBlockHashsByBlockHeight => kBlockHeight2thousandSumHash
  | .topThousandSumhash => kTopThousandSumhashKey
  | .blockTop => kBlockTopKey
  | .utxoHashsByAddress => kAddress2UtxoKey
  | .utxoValueByUtxoHashs => []
  | .transactionByHash => kTransactionHash2TransactionRawKey
  | .blockHashByTransactionHash => kTransactionHash2BlockHashKey
  | .transactionByAddress => kAddress2TransactionRawKey
  | .blockHashByAddress => kAddress2BlcokHashKey
  | .transactionTopByAddress => kAddress2TransactionTopKey
  | .balanceByAddress => kAddress2BalanceKey
  | .stakeAddresses => kStakeAddrKey
  | .mutliSignAddresses => kMutliSignKey
  | .stakeAddressUtxo => kStakeAddrKey
  | .mutliSignAddressUtxo => kMutliSignKey
  | .bonusAddr => kBonusAddrKey
  | .investAddrByBonusAddr => kBonusAddr2InvestAddrKey
  | .bonusAddrByInvestAddr => kInvestAddr2BonusAddrKey
  | .bonusAddrInvestAddrUtxoByBonusAddr => kBonusAddrInvestAddr2InvestAddrUtxo
  | .bonusUtxoByPeriod => kBonusUtxoKey
  | .investUtxoByPeriod => kInvestUtxoKey
  | .evmDeployerAddr => kEvmAllDeployerAddr
  | .contractAddrByDeployerAddr => kDeployerAddr2ContractAddr
  | .contractCodeByContractAddr => kContractAddr2ContractCode
  | .contractDeployUtxoByContractAddr => kContractAddr2DeployUtxo
  | .latestUtxoByContractAddr => kContractAddr2LatestUtxo
  | .mptValueByMptKey => kContractMptK
  | .signNumberByPeriod => kSignNumberKey
  | .blockNumberByPeriod => kBlockNumberKey
  | .signAddrByPeriod => kSignAddrKey
  | .burnAmountByPeriod => kburnAmountKey
  | .dm => kDM
  | .totalInvestAmount => kTotalInvestAmount
  | .totalCirculation => kM2
  | .initVer => kInitVersionKey

/-- What the arguments are. -/
def shape : Table → Shape
  | .blockHeightByBlockHash | .blockByBlockHash | .transactionByHash
  | .blockHashByTransactionHash => .hash
  | .blockHashByBlockHeight | .sumHashByHeight | .checkBlockHashsByBlockHeight
  | .bonusUtxoByPeriod | .investUtxoByPeriod | .blockNumberByPeriod | .signAddrByPeriod
  | .burnAmountByPeriod => .height
  | .topThousandSumhash | .blockTop | .stakeAddresses | .mutliSignAddresses | .bonusAddr
  | .evmDeployerAddr | .dm | .totalInvestAmount | .totalCirculation | .initVer => .nothing
  | .utxoHashsByAddress | .transactionTopByAddress | .balanceByAddress | .stakeAddressUtxo
  | .mutliSignAddressUtxo | .investAddrByBonusAddr | .bonusAddrByInvestAddr
  | .contractAddrByDeployerAddr | .contractCodeByContractAddr | .contractDeployUtxoByContractAddr
  | .latestUtxoByContractAddr => .address
  | .transactionByAddress | .blockHashByAddress => .addressNum
  | .bonusAddrInvestAddrUtxoByBonusAddr => .addressPair
  | .signNumberByPeriod => .periodAddress
  | .utxoValueByUtxoHashs => .utxo
  | .mptValueByMptKey => .free

end Table

/-- A table with its arguments. -/
abbrev DbKey := (table : Table) × KeyArg table.shape

/-- The RocksDB key. -/
def DbKey.text (k : DbKey) : Str := k.1.head ++ k.2.text

/-! ### Different keys have different texts -/

theorem not_isHexByte_underline : isHexByte underline = false := by decide

/-- A hexadecimal text of known length in front can be split off. -/
theorem HexText.append_inj {n : ℕ} {a b : HexText n} {s t : Str} (h : a.1 ++ s = b.1 ++ t) :
    a = b ∧ s = t := by
  obtain ⟨ha, hs⟩ := List.append_inj h (a.2.1.trans b.2.1.symm)
  exact ⟨Subtype.ext ha, hs⟩

/-- Within one table the arguments can be read off the text. -/
theorem KeyArg.text_injective {shape : Shape} {x y : KeyArg shape} (h : x.text = y.text) : x = y := by
  cases x with
  | nothing =>
    cases y
    rfl
  | hash h₁ =>
    cases y with
    | hash h₂ => rw [Subtype.ext h]
  | height n =>
    cases y with
    | height m => rw [decimal_injective h]
  | address a =>
    cases y with
    | address b => rw [Subtype.ext h]
  | addressNum a n =>
    cases y with
    | addressNum b m =>
      simp only [KeyArg.text, List.append_assoc] at h
      obtain ⟨rfl, hrest⟩ := HexText.append_inj h
      have hnum : decimal n = decimal m := List.append_cancel_left hrest
      rw [decimal_injective hnum]
  | addressPair a a' =>
    cases y with
    | addressPair b b' =>
      simp only [KeyArg.text, List.append_assoc] at h
      obtain ⟨rfl, hrest⟩ := HexText.append_inj h
      have hval : a'.1 = b'.1 := List.append_cancel_left hrest
      rw [Subtype.ext hval]
  | periodAddress n a =>
    cases y with
    | periodAddress m b =>
      -- no separator: the address is told apart by its length
      obtain ⟨hn, ha⟩ := List.append_inj' h (a.2.1.trans b.2.1.symm)
      rw [decimal_injective hn, Subtype.ext ha]
  | utxo a a' =>
    cases y with
    | utxo b b' =>
      simp only [KeyArg.text, List.append_assoc] at h
      obtain ⟨rfl, hrest⟩ := HexText.append_inj h
      have hval : a'.1 = b'.1 := List.append_cancel_left hrest
      rw [Subtype.ext hval]
  | free s =>
    cases y with
    | free t => exact congrArg KeyArg.free h

/-- What the texts of the tables are checked for, all at once: no text starts with another table's, two
    tables share a text only as the list of all addresses and what belongs to one of them, and every
    text has an underscore where an unspent output's key still has its address. -/
theorem Table.heads_checked :
    (∀ t t' : Table, t ≠ .utxoValueByUtxoHashs → t' ≠ .utxoValueByUtxoHashs →
      t.head <+: t'.head → t.head = t'.head) ∧
    (∀ t t' : Table, t.head = t'.head → t = t' ∨
      (t.shape = .nothing ∧ t'.shape = .address) ∨ (t.shape = .address ∧ t'.shape = .nothing)) ∧
    ∀ t : Table, t ≠ .utxoValueByUtxoHashs → underline ∈ t.head.take 40 := by decide +kernel

theorem KeyArg.length_nothing : ∀ {shape : Shape} (x : KeyArg shape), shape = .nothing →
    x.text.length = 0
  | _, .nothing, rfl => rfl

theorem KeyArg.length_address : ∀ {shape : Shape} (x : KeyArg shape), shape = .address →
    x.text.length = 40
  | _, .address a, rfl => a.2.1

/-- The key of an unspent output is none of another table. -/
theorem DbKey.text_ne_utxo {t : Table} (ht : t ≠ .utxoValueByUtxoHashs) (x : KeyArg t.shape)
    (u : KeyArg .utxo) : DbKey.text ⟨t, x⟩ ≠ DbKey.text ⟨.utxoValueByUtxoHashs, u⟩ := by
  cases u with
  | utxo addr hash =>
    intro h
    have hmem : underline ∈ (DbKey.text ⟨t, x⟩).take 40 := by
      rw [DbKey.text, List.take_append]
      exact List.mem_append_left _ (Table.heads_checked.2.2 t ht)
    have htake : (DbKey.text ⟨.utxoValueByUtxoHashs, .utxo addr hash⟩).take 40 = addr.1 := by
      simp only [DbKey.text, Table.head, List.nil_append, KeyArg.text, List.append_assoc]
      rw [List.take_append_of_le_length addr.2.1.ge, List.take_of_length_le addr.2.1.le]
    rw [h, htake] at hmem
    exact absurd (addr.2.2 _ hmem) (by simp [not_isHexByte_underline])

/-- Tables other than that of the unspent outputs: one key, one table, one argument. -/
theorem DbKey.text_inj_of_head {t t' : Table} (ht : t ≠ .utxoValueByUtxoHashs)
    (ht' : t' ≠ .utxoValueByUtxoHashs) {x : KeyArg t.shape} {x' : KeyArg t'.shape}
    (h : t.head ++ x.text = t'.head ++ x'.text) : (⟨t, x⟩ : DbKey) = ⟨t', x'⟩ := by
  have hhead : t.head = t'.head := by
    have hp : t.head <+: t'.head ++ x'.text := h ▸ List.prefix_append t.head x.text
    rcases List.prefix_or_prefix_of_prefix hp (List.prefix_append t'.head x'.text) with hp | hp
    · exact Table.heads_checked.1 t t' ht ht' hp
    · exact (Table.heads_checked.1 t' t ht' ht hp).symm
  have hbody : x.text = x'.text := by
    rw [hhead] at h
    exact List.append_cancel_left h
  have hlen := congrArg List.length hbody
  rcases Table.heads_checked.2.1 t t' hhead with rfl | ⟨hs, hs'⟩ | ⟨hs, hs'⟩
  · rw [KeyArg.text_injective hbody]
  · rw [x.length_nothing hs, x'.length_address hs'] at hlen
    exact absurd hlen (by decide)
  · rw [x.length_address hs, x'.length_nothing hs'] at hlen
    exact absurd hlen (by decide)

/-- The RocksDB key determines the table and the arguments. -/
theorem DbKey.text_injective : Function.Injective DbKey.text := by
  rintro ⟨t, x⟩ ⟨t', x'⟩ h
  by_cases ht : t = .utxoValueByUtxoHashs
  · subst ht
    by_cases ht' : t' = .utxoValueByUtxoHashs
    · subst ht'
      exact congrArg (Sigma.mk _) (KeyArg.text_injective (List.append_cancel_left h))
    · exact absurd h.symm (text_ne_utxo ht' x' x)
  · by_cases ht' : t' = .utxoValueByUtxoHashs
    · subst ht'
      exact absurd h (text_ne_utxo ht x x')
    · exact text_inj_of_head ht ht' h

/-! ### Setters -/

/-- A call of one of the setters of `DBReadWriter`. -/
inductive Setter where
  | setBlockHeightByBlockHash (blockHash : HashText) (blockHeight : ℕ)
  | deleteBlockHeightByBlockHash (blockHash : HashText)
  | setBlockHashByBlockHeight (blockHeight : ℕ) (blockHash : Str) (isMainBlock : Bool)
  | removeBlockHashByBlockHeight (blockHeight : ℕ) (blockHash : Str)
  | setBlockByBlockHash (blockHash : HashText) (block : Str)
  | deleteBlockByBlockHash (blockHash : HashText)
  | setSumHashByHeight (height : ℕ) (sumHash : Str)
  | removeSumHashByHeight (height : ℕ)
  | setCheckBlockHashsByBlockHeight (blockHeight : ℕ) (sumHash : Str)
  | removeCheckBlockHashsByBlockHeight (blockHeight : ℕ)
  | setTopThousandSumhash (thousandNum : ℕ)
  | removeTopThousandSumhash (thousandNum : ℕ)
  | setBlockTop (blockHeight : ℕ)
  | setUtxoHashsByAddress (address : AddressText) (utxoHash : Str)
  | removeUtxoHashsByAddress (address : AddressText) (utxoHash : Str)
  | setUtxoValueByUtxoHashs (utxoHash : HashText) (address : AddressText) (balance : Str)
  | removeUtxoValueByUtxoHashs (utxoHash : HashText) (address : AddressText) (balance : Str)
  | setTransactionByHash (txHash : HashText) (txRaw : Str)
  | deleteTransactionByHash (txHash : HashText)
  | setBlockHashByTransactionHash (txHash : HashText) (blockHash : Str)
  | deleteBlockHashByTransactionHash (txHash : HashText)
  | setTransactionByAddress (address : AddressText) (txNum : ℕ) (txRaw : Str)
  | deleteTransactionByAddress (address : AddressText) (txNum : ℕ)
  | setBlockHashByAddress (address : AddressText) (txNum : ℕ) (blockHash : Str)
  | deleteBlockHashByAddress (address : AddressText) (txNum : ℕ)
  | setTransactionTopByAddress (address : AddressText) (txIndex : ℕ)
  | setBalanceByAddress (address : AddressText) (balance : ℤ)
  | deleteBalanceByAddress (address : AddressText)
  | setStakeAddresses (address : Str)
  | removeStakeAddresses (address : Str)
  | setMutliSignAddresses (address : Str)
  | removeMutliSignAddresses (address : Str)
  | setStakeAddressUtxo (stakeAddr : AddressText) (utxo : Str)
  | removeStakeAddressUtxo (stakeAddr : AddressText) (utxo : Str)
  | setMutliSignAddressUtxo (address : AddressText) (utxo : Str)
  | removeMutliSignAddressUtxo (address : AddressText) (utxos : Str)
  | setBonusAddr (bonusAddr : Str)
  | removeBonusAddr (bonusAddr : Str)
  | setInvestAddrByBonusAddr (bonusAddr : AddressText) (investAddr : Str)
  | removeInvestAddrByBonusAddr (bonusAddr : AddressText) (investAddr : Str)
  | setBonusAddrByInvestAddr (investAddr : AddressText) (bonusAddr : Str)
  | removeBonusAddrByInvestAddr (investAddr : AddressText) (bonusAddr : Str)
  | setBonusAddrInvestAddrUtxoByBonusAddr (bonusAddr investAddr : AddressText) (utxo : Str)
  | removeBonusAddrInvestAddrUtxoByBonusAddr (bonusAddr investAddr : AddressText) (utxo : Str)
  | setBonusUtxoByPeriod (period : ℕ) (utxo : Str)
  | removeBonusUtxoByPeriod (period : ℕ) (utxo : Str)
  | setInvestUtxoByPeriod (period : ℕ) (utxo : Str)
  | removeInvestUtxoByPeriod (period : ℕ) (utxo : Str)
  | setEvmDeployerAddr (deployerAddr : Str)
  | removeEvmDeployerAddr (deployerAddr : Str)
  | setContractAddrByDeployerAddr (deployerAddr : AddressText) (contractAddr : Str)
  | removeContractAddrByDeployerAddr (deployerAddr : AddressText) (contractAddr : Str)
  | setContractCodeByContractAddr (contractAddr : AddressText) (contractCode : Str)
  | removeContractCodeByContractAddr (contractAddr : AddressText)
  | setContractDeployUtxoByContractAddr (contractAddr : AddressText) (contractDeployUtxo : Str)
  | removeContractDeployUtxoByContractAddr (contractAddr : AddressText)
  | setLatestUtxoByContractAddr (contractAddr : AddressText) (utxo : Str)
  | removeLatestUtxoByContractAddr (contractAddr : AddressText)
  | setMptValueByMptKey (mptKey mptValue : Str)
  | removeMptValueByMptKey (mptKey : Str)
  | setSignNumberByPeriod (period : ℕ) (address : AddressText) (signNumber : ℕ)
  | removeSignNumberByPeriod (period : ℕ) (address : AddressText)
  | setBlockNumberByPeriod (period blockNumber : ℕ)
  | removeBlockNumberByPeriod (period : ℕ)
  | setSignAddrByPeriod (period : ℕ) (addr : Str)
  | removeSignAddrberByPeriod (period : ℕ) (addr : Str)
  | setburnAmountByPeriod (period burnAmount : ℕ)
  | removeburnAmountByPeriod (period burnAmount : ℕ)
  | setDM (totalBurn : ℕ)
  | setTotalInvestAmount (totalInvest : ℕ)
  | setTotalCirculation (totalCirculation : ℕ)
  | setInitVer (version : Str)

/-- What a setter asks of the writer. -/
inductive Action where
  | writeData (key value : Str)
  | deleteData (key : Str)
  | mergeValue (key value : Str) (firstOrLast : Bool)
  | removeMergeValue (key value : Str)
  deriving DecidableEq, Repr

/-- The body of each setter. (Those of an investment also mark the bonus cache, which no getter
    below reads.) -/
def Setter.action : Setter → Action
  | .setBlockHeightByBlockHash blockHash blockHeight =>
    .writeData (kBlockHash2BlockHeightKey ++ blockHash.1) (decimal blockHeight)
  | .deleteBlockHeightByBlockHash blockHash =>
    .deleteData (kBlockHash2BlockHeightKey ++ blockHash.1)
  | .setBlockHashByBlockHeight blockHeight blockHash isMainBlock =>
    .mergeValue (kBlockHeight2BlockHashKey ++ decimal blockHeight) blockHash isMainBlock
  | .removeBlockHashByBlockHeight blockHeight blockHash =>
    .removeMergeValue (kBlockHeight2BlockHashKey ++ decimal blockHeight) blockHash
  | .setBlockByBlockHash blockHash block => .writeData (kBlockHash2BlcokRawKey ++ blockHash.1) block
  | .deleteBlockByBlockHash blockHash => .deleteData (kBlockHash2BlcokRawKey ++ blockHash.1)
  | .setSumHashByHeight height sumHash =>
    .writeData (kBlockHeight2SumHash ++ decimal height) sumHash
  | .removeSumHashByHeight height => .deleteData (kBlockHeight2SumHash ++ decimal height)
  | .setCheckBlockHashsByBlockHeight blockHeight sumHash =>
    .writeData (kBlockHeight2thousandSumHash ++ decimal blockHeight) sumHash
  | .removeCheckBlockHashsByBlockHeight blockHeight =>
    .deleteData (kBlockHeight2thousandSumHash ++ decimal blockHeight)
  | .setTopThousandSumhash thousandNum => .writeData kTopThousandSumhashKey (decimal thousandNum)
  | .removeTopThousandSumhash _ => .deleteData kTopThousandSumhashKey
  | .setBlockTop blockHeight => .writeData kBlockTopKey (decimal blockHeight)
  | .setUtxoHashsByAddress address utxoHash =>
    .mergeValue (kAddress2UtxoKey ++ address.1) utxoHash false
  | .removeUtxoHashsByAddress address utxoHash =>
    .removeMergeValue (kAddress2UtxoKey ++ address.1) utxoHash
  | .setUtxoValueByUtxoHashs utxoHash address balance =>
    .writeData (address.1 ++ [underline] ++ utxoHash.1) balance
  | .removeUtxoValueByUtxoHashs utxoHash address _ =>
    .deleteData (address.1 ++ [underline] ++ utxoHash.1)
  | .setTransactionByHash txHash txRaw =>
    .writeData (kTransactionHash2TransactionRawKey ++ txHash.1) txRaw
  | .deleteTransactionByHash txHash => .deleteData (kTransactionHash2TransactionRawKey ++ txHash.1)
  | .setBlockHashByTransactionHash txHash blockHash =>
    .writeData (kTransactionHash2BlockHashKey ++ txHash.1) blockHash
  | .deleteBlockHashByTransactionHash txHash =>
    .deleteData (kTransactionHash2BlockHashKey ++ txHash.1)
  | .setTransactionByAddress address txNum txRaw =>
    .writeData (kAddress2TransactionRawKey ++ (address.1 ++ [underline] ++ decimal txNum)) txRaw
  | .deleteTransactionByAddress address txNum =>
    .deleteData (kAddress2TransactionRawKey ++ (address.1 ++ [underline] ++ decimal txNum))
  | .setBlockHashByAddress address txNum blockHash =>
    .writeData (kAddress2BlcokHashKey ++ (address.1 ++ [underline] ++ decimal txNum)) blockHash
  | .deleteBlockHashByAddress address txNum =>
    .deleteData (kAddress2BlcokHashKey ++ (address.1 ++ [underline] ++ decimal txNum))
  | .setTransactionTopByAddress address txIndex =>
    .writeData (kAddress2TransactionTopKey ++ address.1) (decimal txIndex)
  | .setBalanceByAddress address balance =>
    .writeData (kAddress2BalanceKey ++ address.1) (signedDecimal balance)
  | .deleteBalanceByAddress address => .deleteData (kAddress2BalanceKey ++ address.1)
  | .setStakeAddresses address => .mergeValue kStakeAddrKey address false
  | .removeStakeAddresses address => .removeMergeValue kStakeAddrKey address
  | .setMutliSignAddresses address => .mergeValue kMutliSignKey address false
  | .removeMutliSignAddresses address => .removeMergeValue kMutliSignKey address
  | .setStakeAddressUtxo stakeAddr utxo => .mergeValue (kStakeAddrKey ++ stakeAddr.1) utxo false
  | .removeStakeAddressUtxo stakeAddr utxo => .removeMergeValue (kStakeAddrKey ++ stakeAddr.1) utxo
  | .setMutliSignAddressUtxo address utxo => .mergeValue (kMutliSignKey ++ address.1) utxo false
  | .removeMutliSignAddressUtxo address utxos =>
    .removeMergeValue (kMutliSignKey ++ address.1) utxos
  | .setBonusAddr bonusAddr => .mergeValue kBonusAddrKey bonusAddr false
  | .removeBonusAddr bonusAddr => .removeMergeValue kBonusAddrKey bonusAddr
  | .setInvestAddrByBonusAddr bonusAddr investAddr =>
    .mergeValue (kBonusAddr2InvestAddrKey ++ bonusAddr.1) investAddr false
  | .removeInvestAddrByBonusAddr bonusAddr investAddr =>
    .removeMergeValue (kBonusAddr2InvestAddrKey ++ bonusAddr.1) investAddr
  | .setBonusAddrByInvestAddr investAddr bonusAddr =>
    .mergeValue (kInvestAddr2BonusAddrKey ++ investAddr.1) bonusAddr false
  | .removeBonusAddrByInvestAddr investAddr bonusAddr =>
    .removeMergeValue (kInvestAddr2BonusAddrKey ++ investAddr.1) bonusAddr
  | .setBonusAddrInvestAddrUtxoByBonusAddr bonusAddr investAddr utxo =>
    .mergeValue (kBonusAddrInvestAddr2InvestAddrUtxo ++ (bonusAddr.1 ++ [underline] ++ investAddr.1))
      utxo false
  | .removeBonusAddrInvestAddrUtxoByBonusAddr bonusAddr investAddr utxo =>
    .removeMergeValue
      (kBonusAddrInvestAddr2InvestAddrUtxo ++ (bonusAddr.1 ++ [underline] ++ investAddr.1)) utxo
  | .setBonusUtxoByPeriod period utxo => .mergeValue (kBonusUtxoKey ++ decimal period) utxo false
  | .removeBonusUtxoByPeriod period utxo => .removeMergeValue (kBonusUtxoKey ++ decimal period) utxo
  | .setInvestUtxoByPeriod period utxo => .mergeValue (kInvestUtxoKey ++ decimal period) utxo false
  | .removeInvestUtxoByPeriod period utxo =>
    .removeMergeValue (kInvestUtxoKey ++ decimal period) utxo
  | .setEvmDeployerAddr deployerAddr => .mergeValue kEvmAllDeployerAddr deployerAddr false
  | .removeEvmDeployerAddr deployerAddr => .removeMergeValue kEvmAllDeployerAddr deployerAddr
  | .setContractAddrByDeployerAddr deployerAddr contractAddr =>
    .mergeValue (kDeployerAddr2ContractAddr ++ deployerAddr.1) contractAddr false
  | .removeContractAddrByDeployerAddr deployerAddr contractAddr =>
    .removeMergeValue (kDeployerAddr2ContractAddr ++ deployerAddr.1) contractAddr
  | .setContractCodeByContractAddr contractAddr contractCode =>
    .writeData (kContractAddr2ContractCode ++ contractAddr.1) contractCode
  | .removeContractCodeByContractAddr contractAddr =>
    .deleteData (kContractAddr2ContractCode ++ contractAddr.1)
  | .setContractDeployUtxoByContractAddr contractAddr contractDeployUtxo =>
    .writeData (kContractAddr2DeployUtxo ++ contractAddr.1) contractDeployUtxo
  | .removeContractDeployUtxoByContractAddr contractAddr =>
    .deleteData (kContractAddr2DeployUtxo ++ contractAddr.1)
  | .setLatestUtxoByContractAddr contractAddr utxo =>
    .writeData (kContractAddr2LatestUtxo ++ contractAddr.1) utxo
  | .removeLatestUtxoByContractAddr contractAddr =>
    .deleteData (kContractAddr2LatestUtxo ++ contractAddr.1)
  | .setMptValueByMptKey mptKey mptValue => .writeData (kContractMptK ++ mptKey) mptValue
  | .removeMptValueByMptKey mptKey => .deleteData (kContractMptK ++ mptKey)
  | .setSignNumberByPeriod period address signNumber =>
    .writeData (kSignNumberKey ++ (decimal period ++ address.1)) (decimal signNumber)
  | .removeSignNumberByPeriod period address =>
    .deleteData (kSignNumberKey ++ (decimal period ++ address.1))
  | .setBlockNumberByPeriod period blockNumber =>
    .writeData (kBlockNumberKey ++ decimal period) (decimal blockNumber)
  | .removeBlockNumberByPeriod period => .deleteData (kBlockNumberKey ++ decimal period)
  | .setSignAddrByPeriod period addr => .mergeValue (kSignAddrKey ++ decimal period) addr false
  | .removeSignAddrberByPeriod period addr =>
    .removeMergeValue (kSignAddrKey ++ decimal period) addr
  | .setburnAmountByPeriod period burnAmount =>
    .writeData (kburnAmountKey ++ decimal period) (decimal burnAmount)
  | .removeburnAmountByPeriod period _ => .deleteData (kburnAmountKey ++ decimal period)
  | .setDM totalBurn => .writeData kDM (decimal totalBurn)
  | .setTotalInvestAmount totalInvest => .writeData kTotalInvestAmount (decimal totalInvest)
  | .setTotalCirculation totalCirculation => .writeData kM2 (decimal totalCirculation)
  | .setInitVer version => .writeData kInitVersionKey version

/-- The table a setter belongs to, with the arguments of its key. -/
def Setter.key : Setter → DbKey
  | .setBlockHeightByBlockHash blockHash _ => ⟨.blockHeightByBlockHash, .hash blockHash⟩
  | .deleteBlockHeightByBlockHash blockHash => ⟨.blockHeightByBlockHash, .hash blockHash⟩
  | .setBlockHashByBlockHeight blockHeight _ _ => ⟨.blockHashByBlockHeight, .height blockHeight⟩
  | .removeBlockHashByBlockHeight blockHeight _ => ⟨.blockHashByBlockHeight, .height blockHeight⟩
  | .setBlockByBlockHash blockHash _ => ⟨.blockByBlockHash, .hash blockHash⟩
  | .deleteBlockByBlockHash blockHash => ⟨.blockByBlockHash, .hash blockHash⟩
  | .setSumHashByHeight height _ => ⟨.sumHashByHeight, .height height⟩
  | .removeSumHashByHeight height => ⟨.sumHashByHeight, .height height⟩
  | .setCheckBlockHashsByBlockHeight blockHeight _ =>
    ⟨.checkBlockHashsByBlockHeight, .height blockHeight⟩
  | .removeCheckBlockHashsByBlockHeight blockHeight =>
    ⟨.checkBlockHashsByBlockHeight, .height blockHeight⟩
  | .setTopThousandSumhash _ => ⟨.topThousandSumhash, .nothing⟩
  | .removeTopThousandSumhash _ => ⟨.topThousandSumhash, .nothing⟩
  | .setBlockTop _ => ⟨.blockTop, .nothing⟩
  | .setUtxoHashsByAddress address _ => ⟨.utxoHashsByAddress, .address address⟩
  | .removeUtxoHashsByAddress address _ => ⟨.utxoHashsByAddress, .address address⟩
  | .setUtxoValueByUtxoHashs utxoHash address _ => ⟨.utxoValueByUtxoHashs, .utxo address utxoHash⟩
  | .removeUtxoValueByUtxoHashs utxoHash address _ =>
    ⟨.utxoValueByUtxoHashs, .utxo address utxoHash⟩
  | .setTransactionByHash txHash _ => ⟨.transactionByHash, .hash txHash⟩
  | .deleteTransactionByHash txHash => ⟨.transactionByHash, .hash txHash⟩
  | .setBlockHashByTransactionHash txHash _ => ⟨.blockHashByTransactionHash, .hash txHash⟩
  | .deleteBlockHashByTransactionHash txHash => ⟨.blockHashByTransactionHash, .hash txHash⟩
  | .setTransactionByAddress address txNum _ => ⟨.transactionByAddress, .addressNum address txNum⟩
  | .deleteTransactionByAddress address txNum => ⟨.transactionByAddress, .addressNum address txNum⟩
  | .setBlockHashByAddress address txNum _ => ⟨.blockHashByAddress, .addressNum address txNum⟩
  | .deleteBlockHashByAddress address txNum => ⟨.blockHashByAddress, .addressNum address txNum⟩
  | .setTransactionTopByAddress address _ => ⟨.transactionTopByAddress, .address address⟩
  | .setBalanceByAddress address _ => ⟨.balanceByAddress, .address address⟩
  | .deleteBalanceByAddress address => ⟨.balanceByAddress, .address address⟩
  | .setStakeAddresses _ => ⟨.stakeAddresses, .nothing⟩
  | .removeStakeAddresses _ => ⟨.stakeAddresses, .nothing⟩
  | .setMutliSignAddresses _ => ⟨.mutliSignAddresses, .nothing⟩
  | .removeMutliSignAddresses _ => ⟨.mutliSignAddresses, .nothing⟩
  | .setStakeAddressUtxo stakeAddr _ => ⟨.stakeAddressUtxo, .address stakeAddr⟩
  | .removeStakeAddressUtxo stakeAddr _ => ⟨.stakeAddressUtxo, .address stakeAddr⟩
  | .setMutliSignAddressUtxo address _ => ⟨.mutliSignAddressUtxo, .address address⟩
  | .removeMutliSignAddressUtxo address _ => ⟨.mutliSignAddressUtxo, .address address⟩
  | .setBonusAddr _ => ⟨.bonusAddr, .nothing⟩
  | .removeBonusAddr _ => ⟨.bonusAddr, .nothing⟩
  | .setInvestAddrByBonusAddr bonusAddr _ => ⟨.investAddrByBonusAddr, .address bonusAddr⟩
  | .removeInvestAddrByBonusAddr bonusAddr _ => ⟨.investAddrByBonusAddr, .address bonusAddr⟩
  | .setBonusAddrByInvestAddr investAddr _ => ⟨.bonusAddrByInvestAddr, .address investAddr⟩
  | .removeBonusAddrByInvestAddr investAddr _ => ⟨.bonusAddrByInvestAddr, .address investAddr⟩
  | .setBonusAddrInvestAddrUtxoByBonusAddr bonusAddr investAddr _ =>
    ⟨.bonusAddrInvestAddrUtxoByBonusAddr, .addressPair bonusAddr investAddr⟩
  | .removeBonusAddrInvestAddrUtxoByBonusAddr bonusAddr investAddr _ =>
    ⟨.bonusAddrInvestAddrUtxoByBonusAddr, .addressPair bonusAddr investAddr⟩
  | .setBonusUtxoByPeriod period _ => ⟨.bonusUtxoByPeriod, .height period⟩
  | .removeBonusUtxoByPeriod period _ => ⟨.bonusUtxoByPeriod, .height period⟩
  | .setInvestUtxoByPeriod period _ => ⟨.investUtxoByPeriod, .height period⟩
  | .removeInvestUtxoByPeriod period _ => ⟨.investUtxoByPeriod, .height period⟩
  | .setEvmDeployerAddr _ => ⟨.evmDeployerAddr, .nothing⟩
  | .removeEvmDeployerAddr _ => ⟨.evmDeployerAddr, .nothing⟩
  | .setContractAddrByDeployerAddr deployerAddr _ =>
    ⟨.contractAddrByDeployerAddr, .address deployerAddr⟩
  | .removeContractAddrByDeployerAddr deployerAddr _ =>
    ⟨.contractAddrByDeployerAddr, .address deployerAddr⟩
  | .setContractCodeByContractAddr contractAddr _ =>
    ⟨.contractCodeByContractAddr, .address contractAddr⟩
  | .removeContractCodeByContractAddr contractAddr =>
    ⟨.contractCodeByContractAddr, .address contractAddr⟩
  | .setContractDeployUtxoByContractAddr contractAddr _ =>
    ⟨.contractDeployUtxoByContractAddr, .address contractAddr⟩
  | .removeContractDeployUtxoByContractAddr contractAddr =>
    ⟨.contractDeployUtxoByContractAddr, .address contractAddr⟩
  | .setLatestUtxoByContractAddr contractAddr _ =>
    ⟨.latestUtxoByContractAddr, .address contractAddr⟩
  | .removeLatestUtxoByContractAddr contractAddr =>
    ⟨.latestUtxoByContractAddr, .address contractAddr⟩
  | .setMptValueByMptKey mptKey _ => ⟨.mptValueByMptKey, .free mptKey⟩
  | .removeMptValueByMptKey mptKey => ⟨.mptValueByMptKey, .free mptKey⟩
  | .setSignNumberByPeriod period address _ => ⟨.signNumberByPeriod, .periodAddress period address⟩
  | .removeSignNumberByPeriod period address => ⟨.signNumberByPeriod, .periodAddress period address⟩
  | .setBlockNumberByPeriod period _ => ⟨.blockNumberByPeriod, .height period⟩
  | .removeBlockNumberByPeriod period => ⟨.blockNumberByPeriod, .height period⟩
  | .setSignAddrByPeriod period _ => ⟨.signAddrByPeriod, .height period⟩
  | .removeSignAddrberByPeriod period _ => ⟨.signAddrByPeriod, .height period⟩
  | .setburnAmountByPeriod period _ => ⟨.burnAmountByPeriod, .height period⟩
  | .removeburnAmountByPeriod period _ => ⟨.burnAmountByPeriod, .height period⟩
  | .setDM _ => ⟨.dm, .nothing⟩
  | .setTotalInvestAmount _ => ⟨.totalInvestAmount, .nothing⟩
  | .setTotalCirculation _ => ⟨.totalCirculation, .nothing⟩
  | .setInitVer _ => ⟨.initVer, .nothing⟩

/-- The writing methods of `DBReadWriter`, up to the status they make of the result. -/
def Action.perform (w : RocksDBReadWriter) : Action → Reply
  | .writeData key value => w.writeData key value
  | .deleteData key => w.deleteData key
  | .mergeValue key value firstOrLast => w.mergeValue key value firstOrLast
  | .removeMergeValue key value => w.removeMergeValue key value

/-- The key an action is about. -/
def Action.key : Action → Str
  | .writeData key _ => key
  | .deleteData key => key
  | .mergeValue key _ _ => key
  | .removeMergeValue key _ => key

/-- A setter's call: the status it returns and the writer it leaves. -/
def Setter.call (w : RocksDBReadWriter) (s : Setter) : DBStatus × RocksDBReadWriter :=
  let reply := s.action.perform w
  (if reply.returned then .success else .error, reply.writer)

/-! ### Getters -/

/-- A getter that splits what it reads. -/
def DBReader.getTexts (db : DBReader) (key : Str) : Except DBStatus (List Str) :=
  (db.readData key).map fun value => splitString value underline

/-- A getter that reads a number; `none` inside where the text is none and the parser throws. -/
def DBReader.getNumber (db : DBReader) (key : Str) : Except DBStatus (Option UInt64) :=
  (db.readData key).map stoull

/-- The conversion to `unsigned int`. -/
def toUnsignedInt (n : UInt64) : UInt64 := n.toUInt32.toUInt64

/-- A call of one of the getters of `DBReader`. -/
inductive Getter where
  | getBlockHashesByBlockHeight (startHeight endHeight : ℕ)
  | getBlocksByBlockHash (blockHashes : List HashText)
  | getBlockHeightByBlockHash (blockHash : HashText)
  | getBlockHashByBlockHeight (blockHeight : ℕ)
  | getBlockHashsByBlockHeight (blockHeight : ℕ)
  | getBlockByBlockHash (blockHash : HashText)
  | getSumHashByHeight (height : ℕ)
  | getCheckBlockHashsByBlockHeight (blockHeight : ℕ)
  | getTopThousandSumhash
  | getBlockTop
  | getUtxoHashsByAddress (address : AddressText)
  | getUtxoValueByUtxoHashs (utxoHash : HashText) (address : AddressText)
  | getTransactionByHash (txHash : HashText)
  | getBlockHashByTransactionHash (txHash : HashText)
  | getTransactionByAddress (address : AddressText) (txNum : ℕ)
  | getBlockHashByAddress (address : AddressText) (txNum : ℕ)
  | getTransactionTopByAddress (address : AddressText)
  | getBalanceByAddress (address : AddressText)
  | getStakeAddress
  | getStakeAddressUtxo (address : AddressText)
  | getMutliSignAddress
  | getMutliSignAddressUtxo (address : AddressText)
  | getBonusaddr
  | getInvestAddrsByBonusAddr (bonusAddr : AddressText)
  | getBonusAddrByInvestAddr (address : AddressText)
  | getBonusAddrInvestUtxosByBonusAddr (addr address : AddressText)
  | getBonusUtxoByPeriod (period : ℕ)
  | getInvestUtxoByPeriod (period : ℕ)
  | getSignNumberByPeriod (period : ℕ) (address : AddressText)
  | getBlockNumberByPeriod (period : ℕ)
  | getSignAddrByPeriod (period : ℕ)
  | getburnAmountByPeriod (period : ℕ)
  | getDM
  | getTotalInvestAmount
  | getM2
  | getAllEvmDeployerAddr
  | getContractAddrByDeployerAddr (deployerAddr : AddressText)
  | getContractCodeByContractAddr (contractAddr : AddressText)
  | getContractDeployUtxoByContractAddr (contractAddr : AddressText)
  | getLatestUtxoByContractAddr (contractAddr : AddressText)
  | getMptValueByMptKey (mptKey : Str)
  | getInitVer

/-- What a getter gives back: its status, or what it read. -/
inductive Answer where
  | text (result : Except DBStatus Str)
  | first (result : Except DBStatus (Option Str))
  | texts (result : Except DBStatus (List Str))
  | number (result : Except DBStatus (Option UInt64))
  | signed (result : Except DBStatus (Option Int64))
  | several (status : DBStatus) (values : List Str)

/-- The body of each getter. -/
def Getter.call (r : Reads) : Getter → Answer
  | .getBlockHashesByBlockHeight startHeight endHeight =>
    let answer := r.multiReadData ((List.range' startHeight (endHeight + 1 - startHeight)).map
      fun index_height => kBlockHeight2BlockHashKey ++ decimal index_height)
    .several answer.1 (answer.2.flatMap fun value => splitString value underline)
  | .getBlocksByBlockHash blockHashes =>
    let answer := r.multiReadData (blockHashes.map fun hash => kBlockHash2BlcokRawKey ++ hash.1)
    .several answer.1 answer.2
  | .getBlockHeightByBlockHash blockHash =>
    if blockHash.1 = [] then .number (.error .paramNull)
    else .number ((r.getNumber (kBlockHash2BlockHeightKey ++ blockHash.1)).map (Option.map toUnsignedInt))
  | .getBlockHashByBlockHeight blockHeight =>
    .first ((r.getTexts (kBlockHeight2BlockHashKey ++ decimal blockHeight)).map List.head?)
  | .getBlockHashsByBlockHeight blockHeight =>
    .texts (r.getTexts (kBlockHeight2BlockHashKey ++ decimal blockHeight))
  | .getBlockByBlockHash blockHash =>
    if blockHash.1 = [] then .text (.error .paramNull)
    else .text (r.readData (kBlockHash2BlcokRawKey ++ blockHash.1))
  | .getSumHashByHeight height =>
    if height % 100 ≠ 0 ∨ height = 0 then .text (.error .paramNull)
    else .text (r.readData (kBlockHeight2SumHash ++ decimal height))
  | .getCheckBlockHashsByBlockHeight blockHeight =>
    if blockHeight % 1000 ≠ 0 ∨ blockHeight = 0 then .text (.error .paramNull)
    else .text (r.readData (kBlockHeight2thousandSumHash ++ decimal blockHeight))
  | .getTopThousandSumhash => .number (r.getNumber kTopThousandSumhashKey)
  | .getBlockTop => .number (r.getNumber kBlockTopKey)
  | .getUtxoHashsByAddress address => .texts (r.getUtxoHashsByAddress address.1)
  | .getUtxoValueByUtxoHashs utxoHash address =>
    .text (r.getUtxoValueByUtxoHashs utxoHash.1 address.1)
  | .getTransactionByHash txHash =>
    .text (r.readData (kTransactionHash2TransactionRawKey ++ txHash.1))
  | .getBlockHashByTransactionHash txHash =>
    .text (r.readData (kTransactionHash2BlockHashKey ++ txHash.1))
  | .getTransactionByAddress address txNum =>
    .text (r.readData (kAddress2TransactionRawKey ++ (address.1 ++ [underline] ++ decimal txNum)))
  | .getBlockHashByAddress address txNum =>
    .text (r.readData (kAddress2BlcokHashKey ++ (address.1 ++ [underline] ++ decimal txNum)))
  | .getTransactionTopByAddress address =>
    .number ((r.getNumber (kAddress2TransactionTopKey ++ address.1)).map (Option.map toUnsignedInt))
  | .getBalanceByAddress address =>
    .signed ((r.readData (kAddress2BalanceKey ++ address.1)).map stol)
  | .getStakeAddress => .texts (r.getTexts kStakeAddrKey)
  | .getStakeAddressUtxo address => .texts (r.getStakeAddressUtxo address.1)
  | .getMutliSignAddress => .texts (r.getTexts kMutliSignKey)
  | .getMutliSignAddressUtxo address => .texts (r.getTexts (kMutliSignKey ++ address.1))
  | .getBonusaddr => .texts (r.getTexts kBonusAddrKey)
  | .getInvestAddrsByBonusAddr bonusAddr =>
    .texts (r.getTexts (kBonusAddr2InvestAddrKey ++ bonusAddr.1))
  | .getBonusAddrByInvestAddr address => .texts (r.getTexts (kInvestAddr2BonusAddrKey ++ address.1))
  | .getBonusAddrInvestUtxosByBonusAddr addr address =>
    .texts (r.getTexts (kBonusAddrInvestAddr2InvestAddrUtxo ++ (addr.1 ++ [underline] ++ address.1)))
  | .getBonusUtxoByPeriod period => .texts (r.getTexts (kBonusUtxoKey ++ decimal period))
  | .getInvestUtxoByPeriod period => .texts (r.getTexts (kInvestUtxoKey ++ decimal period))
  | .getSignNumberByPeriod period address =>
    .number (r.getNumber (kSignNumberKey ++ (decimal period ++ address.1)))
  | .getBlockNumberByPeriod period => .number (r.getNumber (kBlockNumberKey ++ decimal period))
  | .getSignAddrByPeriod period => .texts (r.getTexts (kSignAddrKey ++ decimal period))
  | .getburnAmountByPeriod period => .number (r.getNumber (kburnAmountKey ++ decimal period))
  | .getDM => .number (r.getNumber kDM)
  | .getTotalInvestAmount => .number (r.getNumber kTotalInvestAmount)
  | .getM2 => .number (r.getNumber kM2)
  | .getAllEvmDeployerAddr => .texts (r.getTexts kEvmAllDeployerAddr)
  | .getContractAddrByDeployerAddr deployerAddr =>
    .texts (r.getTexts (kDeployerAddr2ContractAddr ++ deployerAddr.1))
  | .getContractCodeByContractAddr contractAddr =>
    .text (r.readData (kContractAddr2ContractCode ++ contractAddr.1))
  | .getContractDeployUtxoByContractAddr contractAddr =>
    .text (r.readData (kContractAddr2DeployUtxo ++ contractAddr.1))
  | .getLatestUtxoByContractAddr contractAddr =>
    .text (r.getLatestUtxoByContractAddr contractAddr.1)
  | .getMptValueByMptKey mptKey => .text (r.readData (kContractMptK ++ mptKey))
  | .getInitVer => .text (r.readData kInitVersionKey)

/-- The table a getter reads, with the arguments of its keys. -/
def Getter.keys : Getter → List DbKey
  | .getBlockHashesByBlockHeight startHeight endHeight =>
    (List.range' startHeight (endHeight + 1 - startHeight)).map
      fun height => ⟨.blockHashByBlockHeight, .height height⟩
  | .getBlocksByBlockHash blockHashes => blockHashes.map fun hash => ⟨.blockByBlockHash, .hash hash⟩
  | .getBlockHeightByBlockHash blockHash => [⟨.blockHeightByBlockHash, .hash blockHash⟩]
  | .getBlockHashByBlockHeight blockHeight => [⟨.blockHashByBlockHeight, .height blockHeight⟩]
  | .getBlockHashsByBlockHeight blockHeight => [⟨.blockHashByBlockHeight, .height blockHeight⟩]
  | .getBlockByBlockHash blockHash => [⟨.blockByBlockHash, .hash blockHash⟩]
  | .getSumHashByHeight height => [⟨.sumHashByHeight, .height height⟩]
  | .getCheckBlockHashsByBlockHeight blockHeight =>
    [⟨.checkBlockHashsByBlockHeight, .height blockHeight⟩]
  | .getTopThousandSumhash => [⟨.topThousandSumhash, .nothing⟩]
  | .getBlockTop => [⟨.blockTop, .nothing⟩]
  | .getUtxoHashsByAddress address => [⟨.utxoHashsByAddress, .address address⟩]
  | .getUtxoValueByUtxoHashs utxoHash address => [⟨.utxoValueByUtxoHashs, .utxo address utxoHash⟩]
  | .getTransactionByHash txHash => [⟨.transactionByHash, .hash txHash⟩]
  | .getBlockHashByTransactionHash txHash => [⟨.blockHashByTransactionHash, .hash txHash⟩]
  | .getTransactionByAddress address txNum => [⟨.transactionByAddress, .addressNum address txNum⟩]
  | .getBlockHashByAddress address txNum => [⟨.blockHashByAddress, .addressNum address txNum⟩]
  | .getTransactionTopByAddress address => [⟨.transactionTopByAddress, .address address⟩]
  | .getBalanceByAddress address => [⟨.balanceByAddress, .address address⟩]
  | .getStakeAddress => [⟨.stakeAddresses, .nothing⟩]
  | .getStakeAddressUtxo address => [⟨.stakeAddressUtxo, .address address⟩]
  | .getMutliSignAddress => [⟨.mutliSignAddresses, .nothing⟩]
  | .getMutliSignAddressUtxo address => [⟨.mutliSignAddressUtxo, .address address⟩]
  | .getBonusaddr => [⟨.bonusAddr, .nothing⟩]
  | .getInvestAddrsByBonusAddr bonusAddr => [⟨.investAddrByBonusAddr, .address bonusAddr⟩]
  | .getBonusAddrByInvestAddr address => [⟨.bonusAddrByInvestAddr, .address address⟩]
  | .getBonusAddrInvestUtxosByBonusAddr addr address =>
    [⟨.bonusAddrInvestAddrUtxoByBonusAddr, .addressPair addr address⟩]
  | .getBonusUtxoByPeriod period => [⟨.bonusUtxoByPeriod, .height period⟩]
  | .getInvestUtxoByPeriod period => [⟨.investUtxoByPeriod, .height period⟩]
  | .getSignNumberByPeriod period address => [⟨.signNumberByPeriod, .periodAddress period address⟩]
  | .getBlockNumberByPeriod period => [⟨.blockNumberByPeriod, .height period⟩]
  | .getSignAddrByPeriod period => [⟨.signAddrByPeriod, .height period⟩]
  | .getburnAmountByPeriod period => [⟨.burnAmountByPeriod, .height period⟩]
  | .getDM => [⟨.dm, .nothing⟩]
  | .getTotalInvestAmount => [⟨.totalInvestAmount, .nothing⟩]
  | .getM2 => [⟨.totalCirculation, .nothing⟩]
  | .getAllEvmDeployerAddr => [⟨.evmDeployerAddr, .nothing⟩]
  | .getContractAddrByDeployerAddr deployerAddr =>
    [⟨.contractAddrByDeployerAddr, .address deployerAddr⟩]
  | .getContractCodeByContractAddr contractAddr =>
    [⟨.contractCodeByContractAddr, .address contractAddr⟩]
  | .getContractDeployUtxoByContractAddr contractAddr =>
    [⟨.contractDeployUtxoByContractAddr, .address contractAddr⟩]
  | .getLatestUtxoByContractAddr contractAddr =>
    [⟨.latestUtxoByContractAddr, .address contractAddr⟩]
  | .getMptValueByMptKey mptKey => [⟨.mptValueByMptKey, .free mptKey⟩]
  | .getInitVer => [⟨.initVer, .nothing⟩]

/-! ### What a setter leaves alone -/

/-- A setter's action is about the key of its table and arguments. -/
theorem Setter.action_key (s : Setter) : s.action.key = s.key.text := by
  cases s with
  | setTopThousandSumhash | removeTopThousandSumhash | setBlockTop | setStakeAddresses
  | removeStakeAddresses | setMutliSignAddresses | removeMutliSignAddresses | setBonusAddr
  | removeBonusAddr | setEvmDeployerAddr | removeEvmDeployerAddr | setDM | setTotalInvestAmount
  | setTotalCirculation | setInitVer => exact (List.append_nil _).symm
  | _ => rfl

/-- An action writes one key or nothing. -/
theorem Action.perform_writer (w : RocksDBReadWriter) (a : Action) :
    (a.perform w).writer = w ∨ ∃ content, (a.perform w).writer = w.put a.key content := by
  have hwrite : ∀ key value, (w.writeData key value).writer = w
      ∨ ∃ content, (w.writeData key value).writer = w.put key content := by
    intro key value
    cases ha : w.accepts key with
    | false => exact .inl (RocksDBReadWriter.writeData_of_refused ha).2
    | true =>
      by_cases hv : value = []
      · left
        subst hv
        rw [RocksDBReadWriter.writeData]
        split <;> rfl
      · exact .inr ⟨_, congrArg Reply.writer (RocksDBReadWriter.writeData_of_accepts ha hv)⟩
  have hdelete : ∀ key, (w.deleteData key).writer = w
      ∨ ∃ content, (w.deleteData key).writer = w.put key content := by
    intro key
    cases ha : w.accepts key with
    | false => exact .inl (RocksDBReadWriter.deleteData_of_refused ha).2
    | true => exact .inr ⟨_, congrArg Reply.writer (RocksDBReadWriter.deleteData_of_accepts ha)⟩
  cases a with
  | writeData key value => exact hwrite key value
  | deleteData key => exact hdelete key
  | mergeValue key value firstOrLast =>
    simp only [Action.perform, Action.key, RocksDBReadWriter.mergeValue]
    split
    · exact .inl rfl
    · split
      · exact hwrite key _
      · exact hwrite key value
      · exact .inl rfl
  | removeMergeValue key value =>
    simp only [Action.perform, Action.key, RocksDBReadWriter.removeMergeValue]
    split
    · exact .inl rfl
    · split
      · split
        · exact hdelete key
        · exact hwrite key _
      · exact .inl rfl
      · exact .inl rfl

/-- The getter whose slices do not hold: several heights, the first of them in a short key. -/
def Getter.ReadsFreed : Getter → Prop
  | .getBlockHashesByBlockHeight startHeight endHeight => startHeight < 1000 ∧ startHeight < endHeight
  | _ => False

theorem length_heightKey (height : ℕ) :
    (kBlockHeight2BlockHashKey ++ decimal height).length ≤ localCapacity ↔ height < 1000 := by
  rw [List.length_append]
  exact (Nat.add_le_add_iff_left (n := 12)).trans (length_decimal_le_iff (k := 3) (by decide))

/-- The keys of a range of heights are read as they are unless the first is short and not alone. -/
theorem slicesHold_heights {startHeight endHeight : ℕ}
    (h : ¬ (startHeight < 1000 ∧ startHeight < endHeight)) :
    SlicesHold ((List.range' startHeight (endHeight + 1 - startHeight)).map
      fun height => kBlockHeight2BlockHashKey ++ decimal height) := by
  by_cases hlong : startHeight < 1000
  · refine slicesHold_of_length_le_one ?_
    rw [List.length_map, List.length_range']
    omega
  · refine slicesHold_of_long fun key hkey => ?_
    obtain ⟨height, hheight, rfl⟩ := List.mem_map.mp hkey
    have hge := (List.mem_range'_1.mp hheight).1
    exact Nat.not_le.mp fun hshort => hlong (lt_of_le_of_lt hge ((length_heightKey height).mp hshort))

/-- The keys of blocks are long. -/
theorem slicesHold_blocks (blockHashes : List HashText) :
    SlicesHold (blockHashes.map fun hash => kBlockHash2BlcokRawKey ++ hash.1) := by
  refine slicesHold_of_long fun key hkey => ?_
  obtain ⟨hash, -, rfl⟩ := List.mem_map.mp hkey
  rw [List.length_append, hash.2.1]
  decide

/-- A getter's answer depends on the contents of its own keys only, and where its slices do not hold on
    those of the short keys. -/
theorem Getter.call_congr (g : Getter) {data data' : StdMap Str Str} (freed : FreedMemory)
    (h : ∀ k ∈ g.keys, data' k.text = data k.text)
    (hfreed : g.ReadsFreed → ∀ key : Str, key.length ≤ localCapacity → data' key = data key) :
    g.call (readsOf freed (some data')) = g.call (readsOf freed (some data)) := by
  have hread : ∀ k ∈ g.keys, _ := fun k hk => readData_congr (h k hk)
  have hkeys : ∀ key ∈ g.keys.map DbKey.text, data' key = data key := by
    intro key hkey
    obtain ⟨k, hk, rfl⟩ := List.mem_map.mp hkey
    exact h k hk
  have hmulti := multiReadData_congr freed hkeys
  cases g with
  | getBlockHashesByBlockHeight startHeight endHeight =>
    rw [Getter.keys, List.map_map] at hmulti
    refine congrArg (fun answer : DBStatus × List Str =>
      Answer.several answer.1 (answer.2.flatMap fun value => splitString value underline))
      (hmulti ?_)
    by_cases hheights : startHeight < 1000 ∧ startHeight < endHeight
    · exact .inr (hfreed hheights)
    · exact .inl (slicesHold_heights hheights)
  | getBlocksByBlockHash blockHashes =>
    rw [Getter.keys, List.map_map] at hmulti
    exact congrArg (fun answer : DBStatus × List Str => Answer.several answer.1 answer.2)
      (hmulti (.inl (slicesHold_blocks blockHashes)))
  | _ =>
    -- the getters of one key: all they know of the store is that key's reading
    have hone := hread _ (List.mem_singleton_self _)
    simp only [DbKey.text, Table.head, KeyArg.text, List.nil_append, List.append_nil] at hone
    simp only [Getter.call, readsOf_toDBReader, DBReader.getTexts, DBReader.getNumber,
      DBReader.getUtxoHashsByAddress, DBReader.getUtxoValueByUtxoHashs, DBReader.getStakeAddressUtxo,
      DBReader.getLatestUtxoByContractAddr, hone]

/-- A getter whose slices hold does not see a change of a key that is none of its own. -/
theorem Getter.call_update (g : Getter) (hg : ¬ g.ReadsFreed) (freed : FreedMemory)
    (contents : Option (StdMap Str Str)) {key : Str} (content : Option Str)
    (h : ∀ k ∈ g.keys, k.text ≠ key) :
    g.call (readsOf freed (contents.map fun data => Function.update data key content))
      = g.call (readsOf freed contents) := by
  cases contents with
  | none => rfl
  | some data =>
    exact g.call_congr freed (fun k hk => Function.update_of_ne (h k hk) _ _) fun hr => absurd hr hg

/-- It answers as before such a write, in the transaction and, once it is committed, outside. -/
theorem Getter.call_put (g : Getter) (hg : ¬ g.ReadsFreed) (freed : FreedMemory)
    (w : RocksDBReadWriter) {key : Str} (content : Option Str) (h : ∀ k ∈ g.keys, k.text ≠ key) :
    g.call ((w.put key content).reads freed) = g.call (w.reads freed)
      ∧ ((w.put key content).committedReads freed).map g.call
        = (w.committedReads freed).map g.call := by
  have hupdate := g.call_update hg freed
  constructor
  · rw [RocksDBReadWriter.reads, contents_put]
    exact hupdate w.contents content h
  · rw [committedReads_eq, committedReads_eq, contents_put]
    cases hc : w.contents with
    | none => rfl
    | some data => exact congrArg some (hupdate (some data) content h)

/-- A setter leaves every other key alone, and the locks with it. -/
theorem Setter.call_frame (s : Setter) (w : RocksDBReadWriter) :
    (∀ key, key ≠ s.action.key → (s.call w).2.stored key = w.stored key) ∧
      ∀ key, (s.call w).2.accepts key = w.accepts key := by
  rcases s.action.perform_writer w with hw | ⟨content, hw⟩
  · rw [Setter.call, hw]
    exact ⟨fun _ _ => rfl, fun _ => rfl⟩
  · rw [Setter.call, hw]
    exact ⟨fun key hkey => RocksDBReadWriter.stored_put_ne hkey content,
      fun key => RocksDBReadWriter.accepts_put key content⟩

/-! ### What the memory given back lets a getter see -/

/-- A writer on an empty store. -/
def emptyWriter : RocksDBReadWriter := ⟨true, some ⟨StdMap.empty, fun _ => false⟩⟩

/-- The number of blocks of a period is none of the keys of some heights. -/
theorem blockNumber_notMem_keys (startHeight endHeight period blockNumber : ℕ) :
    (Setter.setBlockNumberByPeriod period blockNumber).key
      ∉ (Getter.getBlockHashesByBlockHeight startHeight endHeight).keys := by
  intro h
  obtain ⟨height, -, hkey⟩ := List.mem_map.mp h
  cases hkey

/-- The writing of it on an empty store. -/
theorem call_setBlockNumber (period : ℕ) :
    ((Setter.setBlockNumberByPeriod period 1).call emptyWriter).2
      = emptyWriter.put (kBlockNumberKey ++ decimal period) (some (decimal 1)) := by
  have haccepts : emptyWriter.accepts (kBlockNumberKey ++ decimal period) := by
    simp [RocksDBReadWriter.accepts, RocksDBReadWriter.checked, emptyWriter, decimal_ne_nil]
  rw [Setter.call, Setter.action, Action.perform,
    RocksDBReadWriter.writeData_of_accepts haccepts (decimal_ne_nil 1)]

/-- Where the first height's key was, the memory shows the key of the period of that number. -/
theorem blockNumber_asked {startHeight endHeight : ℕ} (hshort : startHeight < 1000)
    (hseveral : startHeight < endHeight) :
    kBlockNumberKey ++ decimal startHeight
      ∈ askedKeys (showing (kBlockNumberKey ++ decimal startHeight))
        ((List.range' startHeight (endHeight + 1 - startHeight)).map
          fun height => kBlockHeight2BlockHashKey ++ decimal height) := by
  obtain ⟨n, hn⟩ : ∃ n, endHeight + 1 - startHeight = n + 2 := ⟨endHeight - startHeight - 1, by omega⟩
  have hheads : kBlockHeight2BlockHashKey.length = kBlockNumberKey.length := by decide
  have hlen : (kBlockHeight2BlockHashKey ++ decimal startHeight).length
      = (kBlockNumberKey ++ decimal startHeight).length := by
    rw [List.length_append, List.length_append, hheads]
  rw [hn, List.range'_succ, List.range'_succ, List.map_cons, List.map_cons]
  exact mem_askedKeys_showing ((length_heightKey startHeight).mpr hshort) hlen _

/-- Several heights, the first below 1000, read the number of blocks of a period. -/
theorem reads_blockNumber {startHeight endHeight : ℕ} (hshort : startHeight < 1000)
    (hseveral : startHeight < endHeight) : ∃ freed,
    (Getter.getBlockHashesByBlockHeight startHeight endHeight).call
        (((Setter.setBlockNumberByPeriod startHeight 1).call emptyWriter).2.reads freed)
      ≠ (Getter.getBlockHashesByBlockHeight startHeight endHeight).call (emptyWriter.reads freed) := by
  have hasked := blockNumber_asked hshort hseveral
  generalize hkey : kBlockNumberKey ++ decimal startHeight = text at hasked
  refine ⟨showing text, fun hsame => ?_⟩
  rw [call_setBlockNumber, hkey] at hsame
  simp only [Getter.call, Answer.several.injEq] at hsame
  have hvalues := hsame.2
  generalize hkeys : (List.range' startHeight (endHeight + 1 - startHeight)).map
    (fun height => kBlockHeight2BlockHashKey ++ decimal height) = keys at hasked hvalues
  have hsome : keys ≠ [] := by
    rintro rfl
    exact absurd hasked List.not_mem_nil
  -- the store is empty without the write, and the number is read with it
  have hbefore : decimal 1 ∉ ((emptyWriter.reads (showing text)).multiReadData keys).2.flatMap
      fun value => splitString value underline := by
    intro hmem
    obtain ⟨value, hvalue, hpiece⟩ := List.mem_flatMap.mp hmem
    simp only [RocksDBReadWriter.reads, RocksDBReadWriter.contents, emptyWriter, readsOf, hsome,
      if_true, if_false, Option.map_some, StdMap.empty_apply, Option.getD_none] at hvalue
    obtain ⟨key, -, rfl⟩ := List.mem_map.mp hvalue
    exact absurd hpiece List.not_mem_nil
  refine hbefore (hvalues ▸ List.mem_flatMap.mpr ⟨decimal 1, ?_, by decide⟩)
  rw [RocksDBReadWriter.reads, contents_put]
  simp only [RocksDBReadWriter.contents, emptyWriter, readsOf, hsome, if_true, if_false,
    Option.map_some]
  exact List.mem_map.mpr ⟨text, hasked, by simp⟩

/-- The schema is free of collisions: setters of different tables, or of one table with different
    arguments, write different keys, and a setter writes no other key than its own. That no setter
    of another table or of other arguments changes what a getter returns, whatever the memory given
    back shows, holds of all getters but the one of several heights from below 1000 on. -/
theorem key_schema_collision_free (g : Getter) :
    (∀ s s' : Setter, s.key ≠ s'.key → s.action.key ≠ s'.action.key)
      ∧ (∀ (s : Setter) (w : RocksDBReadWriter) (key : Str), key ≠ s.action.key →
        (s.call w).2.stored key = w.stored key)
      ∧ ((∀ (freed : FreedMemory) (s : Setter) (w : RocksDBReadWriter), s.key ∉ g.keys →
          g.call ((s.call w).2.reads freed) = g.call (w.reads freed)
            ∧ ((s.call w).2.committedReads freed).map g.call = (w.committedReads freed).map g.call)
        ↔ ¬ g.ReadsFreed) := by
  refine ⟨fun s s' hne hkey => ?_, fun s w => (s.call_frame w).1, fun h hg => ?_, ?_⟩
  · rw [s.action_key, s'.action_key] at hkey
    exact hne (DbKey.text_injective hkey)
  · match g, hg with
    | .getBlockHashesByBlockHeight startHeight endHeight, ⟨hshort, hseveral⟩ =>
      obtain ⟨freed, hread⟩ := reads_blockNumber hshort hseveral
      exact hread (h freed _ emptyWriter (blockNumber_notMem_keys startHeight endHeight startHeight 1)).1
  · intro hg freed s w hs
    have hkeys : ∀ k ∈ g.keys, k.text ≠ s.action.key := by
      intro k hk htext
      rw [s.action_key] at htext
      exact hs (DbKey.text_injective htext ▸ hk)
    rcases s.action.perform_writer w with hw | ⟨content, hw⟩
    · rw [Setter.call, hw]
      exact ⟨rfl, rfl⟩
    · rw [Setter.call, hw]
      exact g.call_put hg freed w content hkeys

/-- The hashes of the first hundred heights, as the answer to a peer that syncs from zero asks for them:
    the number of blocks of a period is among them. -/
theorem heights_see_blockNumber : ¬ ∀ (freed : FreedMemory) (s : Setter) (g : Getter)
    (w : RocksDBReadWriter), s.key ∉ g.keys →
      g.call ((s.call w).2.reads freed) = g.call (w.reads freed) := by
  intro h
  obtain ⟨freed, hread⟩ := @reads_blockNumber 1 100 (by decide) (by decide)
  exact hread (h freed _ _ emptyWriter (blockNumber_notMem_keys 1 100 1 1))

end Tfs.Db
