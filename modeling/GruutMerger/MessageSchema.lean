import GruutMerger.MessageValidator

/-!
# Message schemas

The JSON schemas that a received body is checked against, and the part of
schema validation that they use: the type of a property that is there, the
elements of an array, and the properties that have to be there.
-/
namespace GruutMerger

open ByteText

inductive PropertyType where
  | string | boolean | array
  deriving DecidableEq

inductive PropertySchema where
  | plain (type : PropertyType)
  /-- an array of objects, all of whose properties are required -/
  | records (properties : List (String × PropertyType))

structure Schema where
  properties : List (String × PropertySchema)
  required : List String

def PropertyType.accepts : PropertyType → Json → Bool
  | string, .string _ => true
  | boolean, .boolean _ => true
  | array, .array _ => true
  | _, _ => false

namespace PropertySchema

def acceptsRecord (properties : List (String × PropertyType)) : Json → Bool
  | .object fs => properties.all fun p => (fs.lookup p.1).any p.2.accepts
  | _ => false

def accepts : PropertySchema → Json → Bool
  | plain type, j => type.accepts j
  | records properties, .array xs => xs.all (acceptsRecord properties)
  | records _, _ => false

end PropertySchema

namespace Schema

def strings (names : List String) : List (String × PropertySchema) := names.map fun n => (n, .plain .string)

/-- A schema of text properties, all required. -/
def ofStrings (names : List String) : Schema := ⟨strings names, names⟩

def accepts (s : Schema) : Json → Bool
  | .object fs => s.required.all (fun n => (fs.lookup n).isSome) &&
      s.properties.all fun p => (fs.lookup p.1).all p.2.accepts
  | _ => false

/-- `content` says `item` where the keyword is `items`, so its elements are not looked at. -/
def txProperties : List (String × PropertyType) :=
  [("txid", .string), ("time", .string), ("rID", .string), ("type", .string), ("content", .array), ("rSig", .string)]

/-- `MSG_SCHEMA_MAP` -/
def schemaMap : List (MessageType × Schema) :=
  [(.up, ofStrings ["mID", "time", "ver", "cID", "ip", "port", "mCert"]),
   (.ping, ⟨strings ["mID", "cID", "time", "sCnt", "stat"], ["mID", "time", "sCnt", "stat"]⟩),
   (.welcome,
    ⟨strings ["mID", "cID", "time"] ++ [("val", .plain .boolean),
        ("merger", .records [("mID", .string), ("ip", .string), ("port", .string), ("mCert", .string)]),
        ("se", .records [("seID", .string), ("ip", .string), ("port", .string), ("seCert", .string)])],
      ["mID", "cID", "time", "val", "merger", "se"]⟩),
   (.reqBlock,
    ⟨strings ["mID", "time", "mCert", "hgt", "prevHash", "hash", "mSig"], ["mID", "time", "mCert", "hgt", "mSig"]⟩),
   (.block, ⟨strings ["mID", "blockraw"] ++ [("tx", .records txProperties)], ["blockraw", "tx"]⟩),
   (.join, ofStrings ["sID", "time", "ver", "cID"]),
   (.response1, ofStrings ["sID", "time", "cert", "sN", "dhx", "dhy", "sig"]),
   (.success, ⟨strings ["sID", "time"] ++ [("val", .plain .boolean)], ["sID", "time", "val"]⟩),
   (.reqSsig, ofStrings ["time", "mID", "cID", "hgt", "txrt"]),
   (.ssig, ofStrings ["sID", "time", "sig"]),
   (.errorMsg, ⟨strings ["sender", "time", "code", "info"], ["sender", "time", "type"]⟩),
   (.tx,
    ⟨strings ["txid", "time", "rID", "type"] ++ [("content", .plain .array), ("rSig", .plain .string)],
      ["txid", "time", "rID", "type", "content", "rSig"]⟩),
   (.reqCheck, ofStrings ["sender", "time", "dID", "txid"]),
   (.reqHeader, ofStrings ["rID", "time", "rCert", "hgt", "rSig"]),
   (.reqStatus, ofStrings ["mID", "time"]),
   (.resStatus, ofStrings ["mID", "time", "mCert", "hgt", "hash", "mSig"])]

/-- The schema of a type byte. -/
def getSchema (msgType : UInt8) : Option Schema :=
  (schemaMap.find? fun p => p.1.code = msgType).map Prod.snd

end Schema

/-- `JsonValidator::validateSchema`: a type without a schema takes any body. -/
def validateSchema (json : Json) (msgType : UInt8) : Bool := (Schema.getSchema msgType).all (·.accepts json)

end GruutMerger
