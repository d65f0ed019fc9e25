namespace ManagedCode

structure AssemblyId where
  index : Nat
  deriving DecidableEq, Inhabited

structure ModuleId where
  index : Nat
  deriving DecidableEq, Inhabited

structure FileId where
  index : Nat
  deriving DecidableEq, Inhabited

structure TypeDefId where
  index : Nat
  deriving DecidableEq, Inhabited

structure FieldId where
  index : Nat
  deriving DecidableEq, Inhabited

structure MethodId where
  index : Nat
  deriving DecidableEq, Inhabited

inductive Primitive where
  | void
  | bool
  | char
  | int8
  | uint8
  | int16
  | uint16
  | int32
  | uint32
  | int64
  | uint64
  | float32
  | float64
  | string
  | object
  | nativeInt
  | nativeUInt
  deriving DecidableEq, Inhabited

def Primitive.all : List Primitive :=
  [.void, .bool, .char, .int8, .uint8, .int16, .uint16, .int32, .uint32, .int64, .uint64,
    .float32, .float64, .string, .object, .nativeInt, .nativeUInt]

/-- A type: a primitive, a named definition, or something built from other types. -/
inductive Ty where
  | primitive (primitive : Primitive)
  | named (definition : TypeDefId)
  | inst (definition : TypeDefId) (args : List Ty)
  | typeParam (index : Nat)
  | methodParam (index : Nat)
  | vector (element : Ty)
  | array (element : Ty) (rank : Nat)
  | pointer (pointee : Ty)
  | byRef (referent : Ty)
  deriving Inhabited

namespace Ty

mutual

/-- Decides equality. A type that lies in memory once is equal to itself without a look at its
parts, so that types built from shared parts are compared in few steps. -/
def decEq (t u : Ty) : Decidable (t = u) :=
  withPtrEqDecEq t u fun _ =>
    if h : t.ctorIdx = u.ctorIdx then
      match t, u, h with
      | .primitive p, .primitive q, _ => decidable_of_iff (p = q) (by simp)
      | .named d, .named e, _ => decidable_of_iff (d = e) (by simp)
      | .inst d ts, .inst e us, _ =>
        if hd : d = e then
          match decEqList ts us with
          | isTrue hs => isTrue (by rw [hd, hs])
          | isFalse hs => isFalse (by simp [hs])
        else
          isFalse (by simp [hd])
      | .typeParam i, .typeParam j, _ => decidable_of_iff (i = j) (by simp)
      | .methodParam i, .methodParam j, _ => decidable_of_iff (i = j) (by simp)
      | .vector t, .vector u, _ =>
        match decEq t u with
        | isTrue ht => isTrue (by rw [ht])
        | isFalse ht => isFalse (by simp [ht])
      | .array t m, .array u n, _ =>
        match decEq t u with
        | isTrue ht => decidable_of_iff (m = n) (by simp [ht])
        | isFalse ht => isFalse (by simp [ht])
      | .pointer t, .pointer u, _ =>
        match decEq t u with
        | isTrue ht => isTrue (by rw [ht])
        | isFalse ht => isFalse (by simp [ht])
      | .byRef t, .byRef u, _ =>
        match decEq t u with
        | isTrue ht => isTrue (by rw [ht])
        | isFalse ht => isFalse (by simp [ht])
    else
      isFalse fun same => h (same ▸ rfl)

/-- Decides equality of lists of types, up to the first place where they differ. -/
def decEqList : (ts us : List Ty) → Decidable (ts = us)
  | [], [] => isTrue rfl
  | t :: ts, u :: us =>
    match decEq t u with
    | isTrue ht =>
      match decEqList ts us with
      | isTrue hs => isTrue (by rw [ht, hs])
      | isFalse hs => isFalse (by simp [hs])
    | isFalse ht => isFalse (by simp [ht])
  | [], _ :: _ => isFalse nofun
  | _ :: _, [] => isFalse nofun

end

instance : DecidableEq Ty := decEq

def int32 : Ty := .primitive .int32

def void : Ty := .primitive .void

/-- The element of an array or vector, or what a pointer points to. -/
def chainElement? : Ty → Option Ty
  | .vector element => some element
  | .array element _ => some element
  | .pointer pointee => some pointee
  | _ => none

/-- The type at the end of a chain of arrays, vectors and pointers. -/
def chainLeaf : Ty → Ty
  | .vector element => chainLeaf element
  | .array element _ => chainLeaf element
  | .pointer pointee => chainLeaf pointee
  | t => t

/-- Everything but a plain named type. -/
def isConstructed : Ty → Bool
  | .named _ => false
  | _ => true

def isByRef : Ty → Bool
  | .byRef _ => true
  | _ => false

/-- A by-ref at the top of a signature stands for what it refers to. -/
def stripByRef : Ty → Ty
  | .byRef referent => referent
  | t => t

end Ty

end ManagedCode
