import Tfs.Basic

/-! Reads of the key-value store (`DBReader` in `db/db_api.cpp`), as far as the models use them.

    Every reader builds a key from a table's text and its argument, reads it, and splits list-valued
    answers at the underscore. -/

namespace Tfs.Db

/-- `DBStatus`. -/
inductive DBStatus where
  | success | error | paramNull | notFound | isExist | deserializationFailed
  deriving DecidableEq, Repr

/-- What RocksDB answers to one read. -/
inductive Lookup where
  | found (value : Str)
  | notFound
  | failed
  deriving DecidableEq, Repr

/-- `DBReader`: the store as it answers reads during one call. -/
structure DBReader where
  lookup : Str → Lookup

/-- `DBReader::ReadData`; every status but success is an error. -/
def DBReader.readData (db : DBReader) (key : Str) : Except DBStatus Str :=
  if key = [] then .error .paramNull
  else match db.lookup key with
    | .found value => .ok value
    | .notFound => .error .notFound
    | .failed => .error .error

/-- The byte `_`. -/
def underline : UInt8 := 95

/-- `StringUtil::SplitString` at one byte: empty pieces are dropped. -/
def splitString (s : Str) (c : UInt8) : List Str := (s.splitOn c).filter fun piece => piece ≠ []

def kAddress2UtxoKey : Str := str "addr2utxo_"
def kStakeAddrKey : Str := str "stakeaddr_"
def kContractAddr2LatestUtxo : Str := str "contractaddr2latestutxo_"

/-- `DBReader::GetUtxoHashsByAddress`. -/
def DBReader.getUtxoHashsByAddress (db : DBReader) (address : Str) : Except DBStatus (List Str) :=
  (db.readData (kAddress2UtxoKey ++ address)).map fun value => splitString value underline

/-- `DBReader::GetUtxoValueByUtxoHashs`. -/
def DBReader.getUtxoValueByUtxoHashs (db : DBReader) (utxoHash address : Str) :
    Except DBStatus Str :=
  db.readData (address ++ [underline] ++ utxoHash)

/-- `DBReader::GetStakeAddressUtxo`. -/
def DBReader.getStakeAddressUtxo (db : DBReader) (address : Str) : Except DBStatus (List Str) :=
  (db.readData (kStakeAddrKey ++ address)).map fun value => splitString value underline

/-- `DBReader::GetLatestUtxoByContractAddr`. -/
def DBReader.getLatestUtxoByContractAddr (db : DBReader) (contractAddr : Str) :
    Except DBStatus Str :=
  db.readData (kContractAddr2LatestUtxo ++ contractAddr)

end Tfs.Db
