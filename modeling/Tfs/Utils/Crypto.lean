import Tfs.Basic
import Tfs.Lib.EarlyExit

/-! The wrappers around the calls of OpenSSL (`utils/crypto.cpp`): which failures of these calls they report.

    The three wrappers in the middle of the file return whether their status is zero, and it is zero from the
    start. `generate_ecdh_keys` starts with a status that is not good. -/

namespace Tfs.Utils.Crypto
open EarlyExit

/-- `ret == 0`. -/
abbrev Zero (ret : ℤ) : Prop := ret = 0

/-! ### The functions -/

/-- The outcomes of the calls of `calc_ecdh_shared_key`. -/
structure CalcCalls where
  ecKeyNew : Bool
  newByCurveName : Bool
  /-- the field type is `NID_X9_62_prime_field` -/
  primeField : Bool
  pointNew1 : Bool
  oct2point1 : Bool
  setPublicKey1 : Bool
  bin2bn : Bool
  setPrivateKey : Bool
  pointNew2 : Bool
  oct2point2 : Bool
  setPublicKey2 : Bool
  /-- `ECDH_compute_key` returns the length of a shared key -/
  computeKey : Bool

/-- `crypto::calc_ecdh_shared_key`, which starts with `ret = false`. -/
def calcEcdhSharedKey (c : CalcCalls) : List (Step ℤ) :=
  [.ignore c.ecKeyNew, .check c.newByCurveName, .check c.primeField,
    .check c.pointNew1, .assign (if c.oct2point1 then 1 else 0), .check c.oct2point1,
    .ignore c.setPublicKey1, .ignore c.bin2bn, .ignore c.setPrivateKey,
    .check c.pointNew2, .assign (if c.oct2point2 then 1 else 0), .check c.oct2point2, .check c.setPublicKey2,
    .check c.computeKey, .assign 0]

/-- The outcomes of the calls of `ecdsa_sign`. -/
structure SignCalls where
  ecKeyNew : Bool
  newByCurveName : Bool
  primeField : Bool
  bin2bn : Bool
  setPrivateKey : Bool
  doSign : Bool
  bn2binpadR : Bool
  bn2binpadS : Bool

/-- `crypto::ecdsa_sign`. -/
def ecdsaSign (c : SignCalls) : List (Step ℤ) :=
  [.ignore c.ecKeyNew, .check c.newByCurveName, .check c.primeField,
    .ignore c.bin2bn, .ignore c.setPrivateKey, .check c.doSign, .assign 0,
    .ignore c.bn2binpadR, .ignore c.bn2binpadS]

/-- The outcomes of the calls of `ecdsa_verify`. -/
structure VerifyCalls where
  ecKeyNew : Bool
  newByCurveName : Bool
  primeField : Bool
  pointNew : Bool
  oct2point : Bool
  setPublicKey : Bool
  sigNew : Bool
  bin2bnR : Bool
  bin2bnS : Bool
  set0 : Bool
  /-- `ECDSA_do_verify` returns 1 -/
  doVerify : Bool

/-- `crypto::ecdsa_verify`: the last test sets the status, and both ways go on to the end. -/
def ecdsaVerify (c : VerifyCalls) : List (Step ℤ) :=
  [.ignore c.ecKeyNew, .check c.newByCurveName, .check c.primeField,
    .check c.pointNew, .assign (if c.oct2point then 1 else 0), .check c.oct2point, .ignore c.setPublicKey,
    .check c.sigNew, .check (c.bin2bnR && c.bin2bnS), .ignore c.set0,
    .check c.doVerify, .assign 0]

/-- The outcomes of the calls of `generate_ecdh_keys` on a key that exists. -/
structure GenerateCalls where
  primeField : Bool
  generateKey : Bool
  /-- `EC_POINT_point2oct` returns the length of a public key -/
  point2oct : Bool
  /-- `BN_bn2bin` returns the length of a private key -/
  bn2bin : Bool

/-- `crypto::generate_ecdh_keys` on a key that exists; here `ret` is a `bool`. -/
def generateEcdhKeys (c : GenerateCalls) : List (Step Bool) :=
  [c.primeField, c.generateKey, c.point2oct, c.bn2bin].map .check ++ [.assign true]

/-! ### Which failures they report -/

/-- Each call is checked, with a status that gets good at the end only. -/
theorem generateEcdhKeys_reports (c : GenerateCalls) : ReportsFailures (· = true) (generateEcdhKeys c) false := by
  have hall : ∀ oks : List Bool, ReportsFailures (· = true) (oks.map .check ++ [.assign true]) false :=
    reportsFailures_of_checks Bool.false_ne_true
  exact hall _

section Convert
variable {ok : Bool} {steps : List (Step ℤ)} {ret : ℤ}

/-- `EC_POINT_oct2point` sets the status to its result, which is zero when it fails. -/
theorem reportsFailures_convert : ReportsFailures Zero (.assign (if ok then 1 else 0) :: .check ok :: steps) ret ↔
    ok ∧ ReportsFailures Zero steps 1 := by
  cases ok
  · simp [reportsFailures_check]
  · simp [reportsFailures_check]

theorem zero_convert : Zero (status (.assign (if ok then 1 else 0) :: .check ok :: steps) ret) ↔
    (ok → Zero (status steps 1)) := by
  cases ok
  · simp
  · simp

end Convert

/-- With the status zero from the start, the first checks pass for success when they fail, and so does that of
    the peer's key. -/
theorem calcEcdhSharedKey_reports_iff (c : CalcCalls) : ReportsFailures Zero (calcEcdhSharedKey c) 0 ↔
    c.newByCurveName ∧ c.primeField ∧ c.pointNew1 ∧ c.oct2point1 ∧ (c.pointNew2 → c.oct2point2) ∧
      (c.pointNew2 ∧ c.oct2point2 ∧ c.setPublicKey2 ∧ c.computeKey →
        c.ecKeyNew ∧ c.setPublicKey1 ∧ c.bin2bn ∧ c.setPrivateKey) := by
  have hzero : Zero 0 := rfl
  have hone : ¬ Zero 1 := one_ne_zero
  simp only [calcEcdhSharedKey, reportsFailures_ignore, reportsFailures_check_good hzero, reportsFailures_check_bad hone,
    reportsFailures_convert, reportsFailures_assign (0 : ℤ), reportsFailures_nil, status_ignore, success_check_good hzero,
    success_check_bad hone, zero_convert, status_assign (0 : ℤ), status_nil]
  grind

/-- The status is zero all the time, so that success is returned whatever happens. -/
theorem ecdsaSign_reports_iff (c : SignCalls) : ReportsFailures Zero (ecdsaSign c) 0 ↔
    c.ecKeyNew ∧ c.newByCurveName ∧ c.primeField ∧ c.bin2bn ∧ c.setPrivateKey ∧ c.doSign ∧ c.bn2binpadR ∧
      c.bn2binpadS := by
  have hzero : Zero 0 := rfl
  simp only [ecdsaSign, reportsFailures_ignore, reportsFailures_check_good hzero, reportsFailures_assign (0 : ℤ),
    reportsFailures_nil, status_ignore, success_check_good hzero, status_assign (0 : ℤ), status_nil]
  grind

/-- A key that is no point is taken for success. -/
theorem ecdsaVerify_reports_iff (c : VerifyCalls) : ReportsFailures Zero (ecdsaVerify c) 0 ↔
    c.newByCurveName ∧ c.primeField ∧ c.pointNew ∧ c.oct2point ∧
      (c.sigNew ∧ (c.bin2bnR && c.bin2bnS) ∧ c.doVerify → c.ecKeyNew ∧ c.setPublicKey ∧ c.set0) := by
  have hzero : Zero 0 := rfl
  have hone : ¬ Zero 1 := one_ne_zero
  simp only [ecdsaVerify, reportsFailures_ignore, reportsFailures_check_good hzero, reportsFailures_check_bad hone,
    reportsFailures_convert, reportsFailures_assign (0 : ℤ), reportsFailures_nil, status_ignore, success_check_good hzero,
    success_check_bad hone, zero_convert, status_assign (0 : ℤ), status_nil]
  grind

/-- When the three wrappers return true only if every step succeeded. -/
theorem wrappers_report_iff (ecdh : CalcCalls) (sign : SignCalls) (verify : VerifyCalls) :
    (ReportsFailures Zero (calcEcdhSharedKey ecdh) 0 ↔
      ecdh.newByCurveName ∧ ecdh.primeField ∧ ecdh.pointNew1 ∧ ecdh.oct2point1 ∧ (ecdh.pointNew2 → ecdh.oct2point2) ∧
        (ecdh.pointNew2 ∧ ecdh.oct2point2 ∧ ecdh.setPublicKey2 ∧ ecdh.computeKey →
          ecdh.ecKeyNew ∧ ecdh.setPublicKey1 ∧ ecdh.bin2bn ∧ ecdh.setPrivateKey)) ∧
    (ReportsFailures Zero (ecdsaSign sign) 0 ↔
      sign.ecKeyNew ∧ sign.newByCurveName ∧ sign.primeField ∧ sign.bin2bn ∧ sign.setPrivateKey ∧ sign.doSign ∧
        sign.bn2binpadR ∧ sign.bn2binpadS) ∧
    (ReportsFailures Zero (ecdsaVerify verify) 0 ↔
      verify.newByCurveName ∧ verify.primeField ∧ verify.pointNew ∧ verify.oct2point ∧
        (verify.sigNew ∧ (verify.bin2bnR && verify.bin2bnS) ∧ verify.doVerify →
          verify.ecKeyNew ∧ verify.setPublicKey ∧ verify.set0)) :=
  ⟨calcEcdhSharedKey_reports_iff ecdh, ecdsaSign_reports_iff sign, ecdsaVerify_reports_iff verify⟩

/-- The key of the peer is no point of the curve. -/
def malformedPeerKey : CalcCalls := ⟨true, true, true, true, true, true, true, true, true, false, true, true⟩

/-- The public key is no point of the curve, and no signature has been looked at. -/
def malformedPublicKey : VerifyCalls := ⟨true, true, true, true, false, true, true, true, true, true, false⟩

/-- A malformed key of the peer passes, a failure to sign passes, and under a malformed public key every
    signature does. -/
theorem failures_pass : ¬ ReportsFailures Zero (calcEcdhSharedKey malformedPeerKey) 0 ∧
    ¬ ReportsFailures Zero (ecdsaSign ⟨true, true, true, true, true, false, true, true⟩) 0 ∧
    ¬ ReportsFailures Zero (ecdsaVerify malformedPublicKey) 0 := by
  rw [calcEcdhSharedKey_reports_iff, ecdsaSign_reports_iff, ecdsaVerify_reports_iff]
  decide

end Tfs.Utils.Crypto
