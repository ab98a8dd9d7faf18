/-
  NvrecYcsb/CoreWorkload.lean
  ===========================
  **The workload: where keys come from** (`core/core_workload.{h,cc}`,
  `core/counter_generator.h`, `core/properties.h`).

  `Init` reads the properties and builds the generators.  Keys to insert are
  numbered by a counter that all clients share (`key_generator_`); keys to
  request are drawn by `key_chooser_` and taken when they are not above the last
  value of a second counter (`insert_key_sequence_`).  A number becomes a key by
  `BuildKeyName`, hashed or not.

  The draws of a generator are inputs.  The arithmetic on doubles that `Init`
  does is a parameter (`DoubleArith`): no key depends on it.

  * `init_spec`: what the members hold after an accepted `Init`;
  * `buildKeyName_inj`: numbers below `2^32` get distinct keys in both modes.
-/
import NvrecYcsb.CppRuntime
import NvrecYcsb.FnvHash

namespace NvrecYcsb.Workload

open CppRuntime FnvHash

/-! ### Properties -/

/-- `utils::Properties`. -/
abbrev Properties := Str → Option Str

/-- `GetProperty`. -/
def getProperty (p : Properties) (key defaultValue : Str) : Str :=
  (p key).getD defaultValue

/-- `::tolower` in the C locale. -/
def toLower (b : Byte) : Byte := if 65 ≤ b ∧ b ≤ 90 then b + 32 else b

/-- `StrToBool`. -/
def strToBool (s : Str) : Outcome Bool :=
  let s := s.map toLower
  if s = str "true" ∨ s = str "1" then .returned true
  else if s = str "false" ∨ s = str "0" then .returned false
  else .threw (.exception (str "Invalid bool string: " ++ s))

def tableNameProperty : Str := str "table"
def tableNameDefault : Str := str "usertable"

def fieldCountProperty : Str := str "fieldcount"
def fieldCountDefault : Str := str "10"

def fieldLengthDistributionProperty : Str := str "field_len_dist"
def fieldLengthDistributionDefault : Str := str "constant"

def fieldLengthProperty : Str := str "fieldlength"
def fieldLengthDefault : Str := str "100"

def readAllFieldsProperty : Str := str "readallfields"
def readAllFieldsDefault : Str := str "true"

def writeAllFieldsProperty : Str := str "writeallfields"
def writeAllFieldsDefault : Str := str "false"

def readProportionProperty : Str := str "readproportion"
def readProportionDefault : Str := str "0.95"

def updateProportionProperty : Str := str "updateproportion"
def updateProportionDefault : Str := str "0.05"

def insertProportionProperty : Str := str "insertproportion"
def insertProportionDefault : Str := str "0.0"

def scanProportionProperty : Str := str "scanproportion"
def scanProportionDefault : Str := str "0.0"

def readModifyWriteProportionProperty : Str := str "readmodifywriteproportion"
def readModifyWriteProportionDefault : Str := str "0.0"

def requestDistributionProperty : Str := str "requestdistribution"
def requestDistributionDefault : Str := str "uniform"

def maxScanLengthProperty : Str := str "maxscanlength"
def maxScanLengthDefault : Str := str "1000"

def scanLengthDistributionProperty : Str := str "scanlengthdistribution"
def scanLengthDistributionDefault : Str := str "uniform"

def insertOrderProperty : Str := str "insertorder"
def insertOrderDefault : Str := str "hashed"

def insertStartProperty : Str := str "insertstart"
def insertStartDefault : Str := str "0"

def recordCountProperty : Str := str "recordcount"
def operationCountProperty : Str := str "operationcount"

/-! ### Generators -/

/-- `CounterGenerator`. -/
structure CounterGenerator where
  counter : UInt64

namespace CounterGenerator

/-- `Next`: one atomic `fetch_add`. -/
def next (g : CounterGenerator) : UInt64 × CounterGenerator := (g.counter, ⟨g.counter + 1⟩)

/-- `Last`. -/
def last (g : CounterGenerator) : UInt64 := g.counter - 1

/-- `Set`. -/
def set (_ : CounterGenerator) (start : UInt64) : CounterGenerator := ⟨start⟩

end CounterGenerator

/-- The generators that `Init` builds, each with the arguments it keeps. -/
inductive Generator where
  | constant (value : UInt64)
  | uniform (min max : UInt64)
  | zipfian (min max : UInt64)
  | scrambledZipfian (numItems : UInt64)
  | skewedLatest
deriving DecidableEq

def kMaxNumItems : UInt64 := (0xFFFFFFFFFFFFFFFF : UInt64) >>> 24

/-- `UniformGenerator`: `std::uniform_int_distribution` needs an interval. -/
def uniformGenerator (min max : UInt64) : Outcome Generator :=
  if min ≤ max then .returned (.uniform min max) else .undefined

/-- `ZipfianGenerator`, with the assertion of its constructor. -/
def zipfianGenerator (min max : UInt64) : Outcome Generator :=
  let numItems := max - min + 1
  if 2 ≤ numItems ∧ numItems < kMaxNumItems then .returned (.zipfian min max) else .aborted

/-- `ScrambledZipfianGenerator`. -/
def scrambledZipfianGenerator (numItems : UInt64) : Outcome Generator := do
  let _ ← zipfianGenerator 0 (numItems - 1)
  .returned (.scrambledZipfian numItems)

/-- `SkewedLatestGenerator`: a zipfian generator over the last value of the
    counter, and a first draw, which asserts the same bounds again. -/
def skewedLatestGenerator (basis : CounterGenerator) : Outcome Generator := do
  let _ ← zipfianGenerator 0 (basis.last - 1)
  .returned .skewedLatest

inductive Operation where
  | insert | read | update | scan | readModifyWrite
deriving DecidableEq

/-- The arithmetic on doubles that `Init` does. -/
structure DoubleArith where
  Double : Type
  stod : Str → Outcome Double
  isPositive : Double → Bool            -- proportion > 0
  newKeys : Int → Double → Int          -- (int)(op_count * insert_proportion * 2)

/-! ### The workload -/

/-- The members of `CoreWorkload`. -/
structure CoreWorkload (D : DoubleArith) where
  tableName : Str
  fieldCount : Int
  readAllFields : Bool
  writeAllFields : Bool
  fieldLenGenerator : Generator
  keyGenerator : CounterGenerator
  opChooser : List (Operation × D.Double)
  keyChooser : Generator
  fieldChooser : Generator
  scanLenChooser : Generator
  insertKeySequence : CounterGenerator
  orderedInserts : Bool
  recordCount : UInt64

/-- `GetFieldLenGenerator`. -/
def getFieldLenGenerator (p : Properties) : Outcome Generator := do
  let fieldLenDist := getProperty p fieldLengthDistributionProperty fieldLengthDistributionDefault
  let fieldLen ← stoi (getProperty p fieldLengthProperty fieldLengthDefault)
  if fieldLenDist = str "constant" then .returned (.constant (.ofInt fieldLen))
  else if fieldLenDist = str "uniform" then uniformGenerator 1 (.ofInt fieldLen)
  else if fieldLenDist = str "zipfian" then zipfianGenerator 1 (.ofInt fieldLen)
  else .threw (.exception (str "Unknown field length distribution: " ++ fieldLenDist))

/-- `op_chooser_.AddValue`, for a proportion that is positive. -/
def addOperation (D : DoubleArith) (op : Operation) (proportion : D.Double)
    (values : List (Operation × D.Double)) : List (Operation × D.Double) :=
  if D.isPositive proportion then values ++ [(op, proportion)] else values

/-- The `key_chooser_` for a request distribution. -/
def requestGenerator (D : DoubleArith) (p : Properties) (recordCount : UInt64)
    (insertProportion : D.Double) (insertKeySequence : CounterGenerator) : Outcome Generator :=
  let requestDist := getProperty p requestDistributionProperty requestDistributionDefault
  if requestDist = str "uniform" then uniformGenerator 0 (recordCount - 1)
  else if requestDist = str "zipfian" then do
    let opCount ← stoi (getProperty p operationCountProperty [])
    scrambledZipfianGenerator (recordCount + .ofInt (D.newKeys opCount insertProportion))
  else if requestDist = str "latest" then skewedLatestGenerator insertKeySequence
  else .threw (.exception (str "Unknown request distribution: " ++ requestDist))

/-- The `scan_len_chooser_` for a scan length distribution. -/
def scanLenGenerator (p : Properties) (maxScanLen : Int) : Outcome Generator :=
  let scanLenDist := getProperty p scanLengthDistributionProperty scanLengthDistributionDefault
  if scanLenDist = str "uniform" then uniformGenerator 1 (.ofInt maxScanLen)
  else if scanLenDist = str "zipfian" then zipfianGenerator 1 (.ofInt maxScanLen)
  else .threw (.exception (str "Distribution not allowed for scan length: " ++ scanLenDist))

/-- `Init`, on a workload just constructed. -/
def init (D : DoubleArith) (p : Properties) : Outcome (CoreWorkload D) := do
  let fieldCount ← stoi (getProperty p fieldCountProperty fieldCountDefault)
  let fieldLenGenerator ← getFieldLenGenerator p
  let readProportion ← D.stod (getProperty p readProportionProperty readProportionDefault)
  let updateProportion ← D.stod (getProperty p updateProportionProperty updateProportionDefault)
  let insertProportion ← D.stod (getProperty p insertProportionProperty insertProportionDefault)
  let scanProportion ← D.stod (getProperty p scanProportionProperty scanProportionDefault)
  let readModifyWriteProportion ← D.stod
    (getProperty p readModifyWriteProportionProperty readModifyWriteProportionDefault)
  let recordCount ← stoi (getProperty p recordCountProperty [])
  let maxScanLen ← stoi (getProperty p maxScanLengthProperty maxScanLengthDefault)
  let insertStart ← stoi (getProperty p insertStartProperty insertStartDefault)
  let readAllFields ← strToBool (getProperty p readAllFieldsProperty readAllFieldsDefault)
  let writeAllFields ← strToBool (getProperty p writeAllFieldsProperty writeAllFieldsDefault)
  let insertKeySequence := CounterGenerator.set ⟨3⟩ (.ofInt recordCount)
  let keyChooser ← requestGenerator D p (.ofInt recordCount) insertProportion insertKeySequence
  let fieldChooser ← uniformGenerator 0 (.ofInt (fieldCount - 1))
  let scanLenChooser ← scanLenGenerator p maxScanLen
  .returned
    { tableName := getProperty p tableNameProperty tableNameDefault
      fieldCount := fieldCount
      readAllFields := readAllFields
      writeAllFields := writeAllFields
      fieldLenGenerator := fieldLenGenerator
      keyGenerator := ⟨.ofInt insertStart⟩
      opChooser :=
        addOperation D .readModifyWrite readModifyWriteProportion <|
        addOperation D .scan scanProportion <|
        addOperation D .insert insertProportion <|
        addOperation D .update updateProportion <|
        addOperation D .read readProportion []
      keyChooser := keyChooser
      fieldChooser := fieldChooser
      scanLenChooser := scanLenChooser
      insertKeySequence := insertKeySequence
      orderedInserts := getProperty p insertOrderProperty insertOrderDefault ≠ str "hashed"
      recordCount := .ofInt recordCount }

namespace CoreWorkload

variable {D : DoubleArith}

/-- `BuildKeyName`. -/
def buildKeyName (wl : CoreWorkload D) (keyNum : UInt64) : Str :=
  stdToString (if ¬wl.orderedInserts then FnvHash.hash keyNum else keyNum).toNat

/-- `NextSequenceKey`: the number drawn, its key, and the workload after the draw. -/
def nextSequenceKey (wl : CoreWorkload D) : UInt64 × Str × CoreWorkload D :=
  let (keyNum, keyGenerator) := wl.keyGenerator.next
  (keyNum, wl.buildKeyName keyNum, { wl with keyGenerator := keyGenerator })

/-- One turn of the loop of `NextTransactionKey`: the key, unless the number that
    was drawn is above the last one of the sequence. -/
def acceptKey (wl : CoreWorkload D) (keyNum : UInt64) : Option Str :=
  if keyNum > wl.insertKeySequence.last then none else some (wl.buildKeyName keyNum)

/-- The operations that `NextOperation` can return. -/
def operations (wl : CoreWorkload D) : List Operation := wl.opChooser.map Prod.fst

/-- **Numbers below `2^32` get distinct keys**, in both insert orders. -/
theorem buildKeyName_inj {wl : CoreWorkload D} {a b : UInt64} (ha : a.toNat < 2 ^ 32)
    (hb : b.toNat < 2 ^ 32) (h : wl.buildKeyName a = wl.buildKeyName b) : a = b := by
  have hnum := UInt64.toNat_inj.mp (stdToString_injective h)
  cases hordered : wl.orderedInserts with
  | true => simpa [hordered] using hnum
  | false =>
    rw [hordered] at hnum
    exact fnvHash64_inj ha hb hnum

theorem acceptKey_of_le {wl : CoreWorkload D} {v : UInt64} (h : v ≤ wl.insertKeySequence.last) :
    wl.acceptKey v = some (wl.buildKeyName v) := if_neg (UInt64.not_lt.mpr h)

theorem acceptKey_eq_some {wl : CoreWorkload D} {v : UInt64} {key : Str} :
    wl.acceptKey v = some key ↔ v ≤ wl.insertKeySequence.last ∧ wl.buildKeyName v = key := by
  rw [acceptKey]
  by_cases hv : v > wl.insertKeySequence.last
  · have hnle : ¬v ≤ wl.insertKeySequence.last := UInt64.not_le.mpr hv
    simp [hv, hnle]
  · have hle : v ≤ wl.insertKeySequence.last := UInt64.not_lt.mp hv
    simp [hv, hle]

end CoreWorkload

/-! ### What `Init` leaves -/

/-- The numbers of the configuration that decide about keys. -/
structure Configured (D : DoubleArith) (p : Properties) (wl : CoreWorkload D)
    (recordCount insertStart : Int) : Prop where
  accepted : init D p = .returned wl
  recordCount : stoi (getProperty p recordCountProperty []) = .returned recordCount
  insertStart : stoi (getProperty p insertStartProperty insertStartDefault) =
    .returned insertStart

variable {D : DoubleArith} {p : Properties} {wl : CoreWorkload D} {recordCount insertStart : Int}

/-- **What the counters hold after an accepted `Init`.** -/
theorem init_spec (h : Configured D p wl recordCount insertStart) :
    wl.keyGenerator = ⟨.ofInt insertStart⟩ ∧ wl.insertKeySequence = ⟨.ofInt recordCount⟩ := by
  obtain ⟨hinit, hrecords, hstart⟩ := h
  simp only [init, Outcome.bind_eq_returned] at hinit
  obtain ⟨_, -, _, -, _, -, _, -, _, -, _, -, _, -, records, hrecords', _, -, start, hstart', _, -,
    _, -, _, -, _, -, _, -, hwl⟩ := hinit
  rw [hrecords] at hrecords'
  rw [hstart] at hstart'
  obtain rfl := Outcome.returned.inj hrecords'
  obtain rfl := Outcome.returned.inj hstart'
  obtain rfl := Outcome.returned.inj hwl
  exact ⟨rfl, rfl⟩

theorem stoi_range {s : Str} {i : Int} (h : stoi s = .returned i) : -2 ^ 31 ≤ i ∧ i < 2 ^ 31 := by
  rw [stoi] at h
  generalize (if (scanNumber s).1 then -(digitsValue (scanNumber s).2 : Int)
    else (digitsValue (scanNumber s).2 : Int)) = value at h
  by_cases hempty : (scanNumber s).2 = []
  · rw [if_pos hempty] at h
    cases h
  · rw [if_neg hempty] at h
    by_cases hrange : value < -2 ^ 31 ∨ 2 ^ 31 ≤ value
    · rw [if_pos hrange] at h
      cases h
    · rw [if_neg hrange] at h
      obtain rfl := Outcome.returned.inj h
      omega

end NvrecYcsb.Workload
