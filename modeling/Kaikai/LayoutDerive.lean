import Kaikai.BinUint

/-!
The derived codec of a record of fixed-width fields: the expressions that the derivation writes,
evaluated where each name means its nearest binder. The decoder binds every field under the name
the field has, in the scope that reads the buffer and the position.
-/

namespace Kaikai.LayoutDerive

open BinSer
open BinUint
open Str
open Word64

inductive ByteOrder where
  | bigEndian
  | littleEndian
deriving DecidableEq

def ByteOrder.be : ByteOrder → Bool
  | bigEndian => true
  | littleEndian => false

inductive UnitExpr where
  | sym (name : String)
  | other
deriving DecidableEq

inductive TypeExpr where
  | name (head : String)
  | dim (base : TypeExpr) (habitant : UnitExpr)
  | other
deriving DecidableEq

structure FieldDecl where
  name : String
  type : TypeExpr
deriving DecidableEq

structure LayoutField where
  name : String
  width : Nat
  order : ByteOrder
deriving DecidableEq

inductive FfiFixed where
  | u8 | u16 | u32 | u64 | i8 | i16 | i32 | i64 | f32
deriving DecidableEq

def ffiFixedOfName (name : String) : Option FfiFixed :=
  if name = "U8" then some .u8
  else if name = "U16" then some .u16
  else if name = "U32" then some .u32
  else if name = "U64" then some .u64
  else if name = "I8" then some .i8
  else if name = "I16" then some .i16
  else if name = "I32" then some .i32
  else if name = "I64" then some .i64
  else if name = "F32" then some .f32
  else none

def ffiFixedBits : FfiFixed → Nat
  | .u8 | .i8 => 8
  | .u16 | .i16 => 16
  | .u32 | .i32 | .f32 => 32
  | .u64 | .i64 => 64

def ffiFixedIsSigned : FfiFixed → Bool
  | .i8 | .i16 | .i32 | .i64 => true
  | _ => false

def ffiFixedIsFloat : FfiFixed → Bool
  | .f32 => true
  | _ => false

def byteOrderOfAtom (atom : String) : Option ByteOrder :=
  if atom = "be" then some .bigEndian else if atom = "le" then some .littleEndian else none

/-- What stands behind the first `$`, the whole name where there is none. -/
def kindSymBare (name : String) : String :=
  match name.toList.dropWhile (· ≠ '$') with
  | [] => name
  | _ :: bare => String.ofList bare

def layoutOrderOf : UnitExpr → Option ByteOrder
  | .sym name => byteOrderOfAtom (kindSymBare name)
  | .other => none

def layoutWidthOf (name : String) : Option Nat :=
  (ffiFixedOfName name).bind fun fx =>
    if ffiFixedIsSigned fx || ffiFixedIsFloat fx then none else some (ffiFixedBits fx / 8)

def layoutFieldOf (fd : FieldDecl) : Option LayoutField :=
  match fd.type with
  | .dim (.name head) habitant =>
      (layoutOrderOf habitant).bind fun order =>
        (layoutWidthOf head).map fun w => ⟨fd.name, w, order⟩
  | _ => none

def lfoLoop : List FieldDecl → List LayoutField → Bool → Option (List LayoutField)
  | [], acc, saw => if saw then some acc.reverse else none
  | f :: rest, acc, _ =>
      match layoutFieldOf f with
      | some lf => lfoLoop rest (lf :: acc) true
      | none => none

def layoutFieldsOf (fields : List FieldDecl) : Option (List LayoutField) := lfoLoop fields [] false

/-- The derived bodies, as far as they are built: a constructor by its identity, a written name,
and the calls of the core functions. A record literal is written field by field. -/
inductive Expr where
  | sym (ctor : String)
  | name (n : String)
  | int (n : Int)
  | str (s : String)
  | field (e : Expr) (n : String)
  | add (a b : Expr)
  | lt (a b : Expr)
  | ite (c t e : Expr)
  | binByte (n : Expr)
  | arrayMake (n fill : Expr)
  | arrayLength (a : Expr)
  | detachUnit (e : Expr)
  | attachUnit (e : Expr)
  | putUint (order : ByteOrder) (buf n width : Expr)
  | getUint (order : ByteOrder) (buf pos width : Expr)
  | matchRead (read : Expr) (bind : String) (found missing : Expr)
  | noFields
  | fieldInit (n : String) (e rest : Expr)
  | cursor (value pos : Expr)
  | ok (e : Expr)
  | err (e : Expr)
deriving DecidableEq

/-- `derive_ctor_id`: names that a derived body takes for constructors. -/
def deriveCtors : List String :=
  ["Some", "None", "Ok", "Err", "JObj", "JArr", "JStr", "JReal", "JNum", "JBool", "JNull"]

def ldVar (n : String) : Expr := if n ∈ deriveCtors then .sym n else .name n

def ldTotalWidth : List LayoutField → Nat → Nat
  | [], acc => acc
  | f :: rest, acc => ldTotalWidth rest (acc + f.width)

def ldEmptyBuf : Expr := .arrayMake (.int 0) (.binByte (.int 0))

def ldEncFold : List LayoutField → Expr → Expr
  | [], acc => acc
  | f :: rest, acc =>
      ldEncFold rest
        (.putUint f.order acc (.detachUnit (.field (ldVar "self") f.name)) (.int f.width))

def ldToBytesBody (lfs : List LayoutField) : Expr := ldEncFold lfs ldEmptyBuf

def ldShortMsg (tname : String) : String := "Layout " ++ tname ++ ": buffer too short"

def ldReadArm (tname : String) (read : Expr) (bind : String) (ok : Expr) : Expr :=
  .matchRead read bind ok (.err (.str (ldShortMsg tname)))

def ldFieldInits : List String → Expr
  | [] => .noFields
  | n :: rest => .fieldInit n (.attachUnit (ldVar n)) (ldFieldInits rest)

def ldOkCursor (names : List String) (width : Nat) : Expr :=
  .ok (.cursor (ldFieldInits names) (.add (ldVar "pos") (.int width)))

def ldRead (f : LayoutField) (off : Nat) : Expr :=
  .getUint f.order (ldVar "buf") (.add (ldVar "pos") (.int off)) (.int f.width)

def ldTower (tname : String) :
    List LayoutField → Nat → List String → List (Expr × String) → Expr
  | [], off, bound, frames =>
      frames.foldl (fun ok fr => ldReadArm tname fr.1 fr.2 ok) (ldOkCursor bound.reverse off)
  | f :: rest, off, bound, frames =>
      ldTower tname rest (off + f.width) (f.name :: bound) ((ldRead f off, f.name) :: frames)

def ldFromBytesBody (tname : String) (lfs : List LayoutField) : Expr :=
  let need := .add (ldVar "pos") (.int (ldTotalWidth lfs 0))
  .ite (.lt (.arrayLength (ldVar "buf")) need) (.err (.str (ldShortMsg tname)))
    (ldTower tname lfs 0 [] [])

inductive Val where
  | int (n : Int)
  | byte (b : UInt8)
  | bytes (bs : Str)
  | bool (b : Bool)
  | str (s : String)
  | ctor (name : String)
  | read (r : Option Int)
  | record (fields : List (String × Int))
  | cursor (value : List (String × Int)) (pos : Int)
  | ok (v : Val)
  | err (msg : Val)
deriving DecidableEq

def Val.asInt : Val → Run Int
  | int n => .ok n
  | _ => .error .illTyped

def Val.asByte : Val → Run UInt8
  | byte b => .ok b
  | _ => .error .illTyped

def Val.asBytes : Val → Run Str
  | bytes bs => .ok bs
  | _ => .error .illTyped

def Val.asBool : Val → Run Bool
  | bool b => .ok b
  | _ => .error .illTyped

def Val.asRead : Val → Run (Option Int)
  | read r => .ok r
  | _ => .error .illTyped

def Val.asRecord : Val → Run (List (String × Int))
  | record fs => .ok fs
  | _ => .error .illTyped

/-- A value, or the trap of a program that no type checker accepts. -/
def typed {α : Type} (o : Option α) : Run α :=
  match o with
  | some a => .ok a
  | none => .error .illTyped

abbrev Env := String → Option Val

def Env.bind (env : Env) (n : String) (v : Val) : Env := fun m => if m = n then some v else env m

def eval (env : Env) : Expr → Run Val
  | .sym c => .ok (.ctor c)
  | .name n => typed (env n)
  | .int n => .ok (.int n)
  | .str s => .ok (.str s)
  | .field e n => do
      let fs ← (← eval env e).asRecord
      let v ← typed (fs.lookup n)
      return .int v
  | .add a b => do
      let x ← (← eval env a).asInt
      let y ← (← eval env b).asInt
      return .int (Word64.add x y)
  | .lt a b => do
      let x ← (← eval env a).asInt
      let y ← (← eval env b).asInt
      return .bool (x < y)
  | .ite c t e => do
      if ← (← eval env c).asBool then eval env t else eval env e
  | .binByte n => do
      let b ← BinSer.binByte (← (← eval env n).asInt)
      return .byte b
  | .arrayMake n fill => do
      let len ← (← eval env n).asInt
      let b ← (← eval env fill).asByte
      return .bytes (List.replicate len.toNat b)
  | .arrayLength a => do
      let bs ← (← eval env a).asBytes
      return .int bs.length
  | .detachUnit e => do
      let n ← (← eval env e).asInt
      return .int n
  | .attachUnit e => do
      let n ← (← eval env e).asInt
      return .int n
  | .putUint order buf n width => do
      let bs ← (← eval env buf).asBytes
      let v ← (← eval env n).asInt
      let w ← (← eval env width).asInt
      let out ← binPutUint bs v w.toNat order.be
      return .bytes out
  | .getUint order buf pos width => do
      let bs ← (← eval env buf).asBytes
      let p ← (← eval env pos).asInt
      let w ← (← eval env width).asInt
      let r ← binGetUint bs p w.toNat order.be
      return .read r
  | .matchRead read bind found missing => do
      match ← (← eval env read).asRead with
      | some n => eval (env.bind bind (.int n)) found
      | none => eval env missing
  | .noFields => .ok (.record [])
  | .fieldInit n e rest => do
      let v ← (← eval env e).asInt
      let fs ← (← eval env rest).asRecord
      return .record ((n, v) :: fs)
  | .cursor value pos => do
      let fs ← (← eval env value).asRecord
      let p ← (← eval env pos).asInt
      return .cursor fs p
  | .ok e => do return .ok (← eval env e)
  | .err e => do return .err (← eval env e)

section Equations

variable {env : Env} {n : String} {a b c t e : Expr}

theorem eval_name : eval env (.name n) = typed (env n) := rfl

theorem eval_int {k : Int} : eval env (.int k) = .ok (.int k) := rfl

theorem eval_field : eval env (.field e n) = (do
    let fs ← (← eval env e).asRecord
    let v ← typed (fs.lookup n)
    return .int v) := rfl

theorem eval_add : eval env (.add a b) = (do
    let x ← (← eval env a).asInt
    let y ← (← eval env b).asInt
    return .int (Word64.add x y)) := rfl

theorem eval_ite : eval env (.ite c t e) = (do
    if ← (← eval env c).asBool then eval env t else eval env e) := rfl

theorem eval_detachUnit : eval env (.detachUnit e) = (do
    let k ← (← eval env e).asInt
    return .int k) := rfl

theorem eval_attachUnit : eval env (.attachUnit e) = (do
    let k ← (← eval env e).asInt
    return .int k) := rfl

theorem eval_putUint {order : ByteOrder} : eval env (.putUint order a b c) = (do
    let bs ← (← eval env a).asBytes
    let v ← (← eval env b).asInt
    let w ← (← eval env c).asInt
    let out ← binPutUint bs v w.toNat order.be
    return .bytes out) := rfl

theorem eval_getUint {order : ByteOrder} : eval env (.getUint order a b c) = (do
    let bs ← (← eval env a).asBytes
    let p ← (← eval env b).asInt
    let w ← (← eval env c).asInt
    let r ← binGetUint bs p w.toNat order.be
    return .read r) := rfl

theorem eval_matchRead : eval env (.matchRead a n t e) = (do
    match ← (← eval env a).asRead with
    | some k => eval (env.bind n (.int k)) t
    | none => eval env e) := rfl

theorem eval_fieldInit : eval env (.fieldInit n a b) = (do
    let v ← (← eval env a).asInt
    let fs ← (← eval env b).asRecord
    return .record ((n, v) :: fs)) := rfl

theorem eval_cursor : eval env (.cursor a b) = (do
    let fs ← (← eval env a).asRecord
    let p ← (← eval env b).asInt
    return .cursor fs p) := rfl

theorem eval_ok : eval env (.ok e) = (do return .ok (← eval env e)) := rfl

end Equations

/-- The scope of a body without bindings of its own. -/
def noEnv : Env := fun _ => none

def toBytes (lfs : List LayoutField) (self : List (String × Int)) : Run Str := do
  (← eval (noEnv.bind "self" (.record self)) (ldToBytesBody lfs)).asBytes

def fromBytes (tname : String) (lfs : List LayoutField) (buf : Str) (pos : Int) : Run Val :=
  eval ((noEnv.bind "buf" (.bytes buf)).bind "pos" (.int pos)) (ldFromBytesBody tname lfs)

/-- A record type whose fields are all of a fixed width; no two fields share a name. -/
structure LayoutType where
  name : String
  decls : List FieldDecl
  fields : List LayoutField
  derived : layoutFieldsOf decls = some fields
  distinct : (fields.map LayoutField.name).Nodup

namespace LayoutType

variable (T : LayoutType)

/-- The record that holds the number `v n` in its field `n`. -/
def record (v : String → Int) : List (String × Int) := T.fields.map fun f => (f.name, v f.name)

def width : Nat := ldTotalWidth T.fields 0

/-- Each field as its bytes of two's complement, in the declared order. -/
def layout (v : String → Int) : Str :=
  T.fields.flatMap fun f => uintBytes (v f.name) f.width f.order.be

/-- What stands ahead of and behind the bytes of a record, in an array. -/
structure Placed where
  pre : Str
  rest : Str
  fits : pre.length + T.width + rest.length < 2 ^ 63

/-- The record is laid out as declared, and read back from between any bytes, each field modulo
its width. -/
structure RoundTrips (v : String → Int) (p : T.Placed) : Prop where
  layout : toBytes T.fields (T.record v) = .ok (T.layout v)
  decode : ∃ (bs : Str) (u : LayoutField → Int), toBytes T.fields (T.record v) = .ok bs ∧
    fromBytes T.name T.fields (p.pre ++ (bs ++ p.rest)) p.pre.length =
      .ok (.ok (.cursor (T.fields.map fun f => (f.name, u f)) (p.pre.length + bs.length : Nat))) ∧
    ∀ f ∈ T.fields, u f % 256 ^ f.width = v f.name % 256 ^ f.width

/-- The division of the writer rounds no field, no field is named as a constructor, one that is
named as the buffer is the last, and one that is named as the position holds that position. -/
structure Harmless (v : String → Int) (p : T.Placed) : Prop where
  bytes : ∀ f ∈ T.fields, Shiftable (v f.name) f.width
  ctor : ∀ f ∈ T.fields, f.name ∉ deriveCtors
  buf : ∀ f ∈ T.fields.dropLast, f.name ≠ "buf"
  pos : ∀ f ∈ T.fields, f.name = "pos" → wrap (v f.name % 256 ^ f.width) = p.pre.length

end LayoutType

theorem layoutWidthOf_range {name : String} {w : Nat} (h : layoutWidthOf name = some w) :
    0 < w ∧ w ≤ 8 := by
  rw [layoutWidthOf, Option.bind_eq_some_iff] at h
  obtain ⟨fx, -, hw⟩ := h
  split_ifs at hw
  rw [← Option.some.inj hw]
  cases fx <;> decide

theorem layoutFieldOf_range {fd : FieldDecl} {f : LayoutField} (h : layoutFieldOf fd = some f) :
    0 < f.width ∧ f.width ≤ 8 := by
  rw [layoutFieldOf] at h
  split at h
  · obtain ⟨order, -, h⟩ := Option.bind_eq_some_iff.1 h
    obtain ⟨w, hw, rfl⟩ := Option.map_eq_some_iff.1 h
    exact layoutWidthOf_range hw
  · cases h

theorem lfoLoop_range {lfs : List LayoutField} : ∀ (ds : List FieldDecl) (acc : List LayoutField) (saw),
    lfoLoop ds acc saw = some lfs → (∀ f ∈ acc, 0 < f.width ∧ f.width ≤ 8) →
      ∀ f ∈ lfs, 0 < f.width ∧ f.width ≤ 8 := by
  intro ds
  induction ds with
  | nil =>
      intro acc saw h hacc f hf
      rw [lfoLoop] at h
      split_ifs at h
      rw [← Option.some.inj h, List.mem_reverse] at hf
      exact hacc f hf
  | cons d ds ih =>
      intro acc saw h hacc
      rw [lfoLoop] at h
      cases hd : layoutFieldOf d with
      | none =>
          rw [hd] at h
          cases h
      | some g =>
          rw [hd] at h
          exact ih (g :: acc) true h (List.forall_mem_cons.2 ⟨layoutFieldOf_range hd, hacc⟩)

theorem LayoutType.width_range (T : LayoutType) : ∀ f ∈ T.fields, 0 < f.width ∧ f.width ≤ 8 :=
  lfoLoop_range T.decls [] false T.derived fun _ hf => absurd hf List.not_mem_nil

theorem ldTotalWidth_eq (lfs : List LayoutField) (acc : Nat) :
    ldTotalWidth lfs acc = acc + ldTotalWidth lfs 0 := by
  induction lfs generalizing acc with
  | nil => rfl
  | cons f lfs ih => rw [ldTotalWidth, ldTotalWidth, ih, ih (0 + f.width), Nat.zero_add, Nat.add_assoc]

theorem ldTotalWidth_cons (f : LayoutField) (lfs : List LayoutField) :
    ldTotalWidth (f :: lfs) 0 = f.width + ldTotalWidth lfs 0 := by
  rw [ldTotalWidth, ldTotalWidth_eq, Nat.zero_add]

theorem ok_bind {α β : Type} (a : α) (f : α → Run β) : (Except.ok a >>= f) = f a := rfl

theorem bind_eq_ok {α β : Type} {m : Run α} {f : α → Run β} {b : β} :
    (m >>= f) = .ok b ↔ ∃ a, m = .ok a ∧ f a = .ok b := by
  cases m with
  | error t => exact iff_of_false (fun h => by cases h) fun ⟨a, h, _⟩ => by cases h
  | ok a => exact ⟨fun h => ⟨a, rfl, h⟩, fun ⟨a', h, hf⟩ => by cases h; exact hf⟩

theorem typed_eq_ok {α : Type} {o : Option α} {a : α} : typed o = .ok a ↔ o = some a := by
  cases o <;> simp [typed]

theorem asInt_eq_ok {v : Val} {n : Int} : v.asInt = .ok n ↔ v = .int n := by
  cases v <;> simp [Val.asInt]

theorem asBytes_eq_ok {v : Val} {bs : Str} : v.asBytes = .ok bs ↔ v = .bytes bs := by
  cases v <;> simp [Val.asBytes]

theorem asRead_eq_ok {v : Val} {r : Option Int} : v.asRead = .ok r ↔ v = .read r := by
  cases v <;> simp [Val.asRead]

theorem asRecord_eq_ok {v : Val} {fs : List (String × Int)} : v.asRecord = .ok fs ↔ v = .record fs := by
  cases v <;> simp [Val.asRecord]

theorem pure_eq_ok {α : Type} {a b : α} : (pure a : Run α) = .ok b ↔ a = b := Except.ok.injEq a b ▸ Iff.rfl

theorem ldVar_name {n : String} (h : n ∉ deriveCtors) : ldVar n = .name n := if_neg h

/-- The bytes that the writer makes of the fields. -/
def written (lfs : List LayoutField) (v : String → Int) : Str :=
  lfs.flatMap fun f => ordered (putBytes (v f.name) f.width) f.order.be

theorem eval_ldEncFold {env : Env} {fs : List (String × Int)} {v : String → Int}
    (hself : env "self" = some (.record fs)) (lfs : List LayoutField) :
    ∀ (acc : Expr) (bs : Str), (∀ f ∈ lfs, fs.lookup f.name = some (v f.name)) →
      eval env acc = .ok (.bytes bs) →
        eval env (ldEncFold lfs acc) = .ok (.bytes (bs ++ written lfs v)) := by
  induction lfs with
  | nil =>
      intro acc bs _ hacc
      rw [ldEncFold, hacc, written, List.flatMap_nil, List.append_nil]
  | cons f lfs ih =>
      intro acc bs hfs hacc
      obtain ⟨hf, hrest⟩ := List.forall_mem_cons.1 hfs
      have hput : eval env
          (.putUint f.order acc (.detachUnit (.field (ldVar "self") f.name)) (.int f.width)) =
            .ok (.bytes (bs ++ ordered (putBytes (v f.name) f.width) f.order.be)) := by
        rw [ldVar_name (by decide)]
        simp only [eval_putUint, eval_detachUnit, eval_field, eval_name, eval_int, hacc, hself, hf,
          typed, ok_bind, Val.asBytes, Val.asInt, Val.asRecord,
          pure, Except.pure, Int.toNat_natCast, binPutUint_eq]
      rw [ldEncFold, ih _ _ hrest hput, List.append_assoc]
      rfl

theorem lookup_record {lfs : List LayoutField} {f : LayoutField} (hf : f ∈ lfs) (v : String → Int) :
    (lfs.map fun f => (f.name, v f.name)).lookup f.name = some (v f.name) := by
  induction lfs with
  | nil => cases hf
  | cons g lfs ih =>
      rw [List.map_cons, List.lookup_cons]
      by_cases hname : f.name = g.name
      · rw [hname, beq_self_eq_true]
      · rw [beq_false_of_ne hname]
        exact ih ((List.mem_cons.1 hf).resolve_left fun h => hname (h ▸ rfl))

theorem toBytes_eq (T : LayoutType) (v : String → Int) :
    toBytes T.fields (T.record v) = .ok (written T.fields v) := by
  have hempty : eval (noEnv.bind "self" (.record (T.record v))) ldEmptyBuf = .ok (.bytes []) := rfl
  rw [toBytes, ldToBytesBody, eval_ldEncFold (if_pos rfl) T.fields _ _
    (fun f hf => lookup_record hf v) hempty]
  rfl

theorem written_eq_iff {v : String → Int} (lfs : List LayoutField) (hw : ∀ f ∈ lfs, 0 < f.width) :
    written lfs v = lfs.flatMap (fun f => uintBytes (v f.name) f.width f.order.be) ↔
      ∀ f ∈ lfs, Shiftable (v f.name) f.width := by
  induction lfs with
  | nil => exact iff_of_true rfl fun f hf => absurd hf List.not_mem_nil
  | cons f lfs ih =>
      obtain ⟨hf, hrest⟩ := List.forall_mem_cons.1 hw
      have hlen : (ordered (putBytes (v f.name) f.width) f.order.be).length =
          (uintBytes (v f.name) f.width f.order.be).length := by
        rw [uintBytes, length_ordered, length_ordered, length_putBytes, length_leBytes]
      rw [List.forall_mem_cons, ← ih hrest, ← putBytes_iff hf,
        ← ordered_eq_iff (a := putBytes (v f.name) f.width) f.order.be]
      constructor
      · exact fun h => List.append_inj h hlen
      · rintro ⟨hhead, htail⟩
        rw [written, List.flatMap_cons, List.flatMap_cons, hhead]
        exact congrArg (_ ++ ·) htail

/-- The tower without its accumulators: one read, and the rest in the scope of its field. -/
def tower (tname : String) : List LayoutField → Nat → List String → Expr
  | [], off, bound => ldOkCursor bound.reverse off
  | f :: rest, off, bound =>
      ldReadArm tname (ldRead f off) f.name (tower tname rest (off + f.width) (f.name :: bound))

theorem ldTower_eq (tname : String) (lfs : List LayoutField) :
    ∀ (off : Nat) (bound : List String) (frames : List (Expr × String)),
      ldTower tname lfs off bound frames =
        frames.foldl (fun ok fr => ldReadArm tname fr.1 fr.2 ok) (tower tname lfs off bound) := by
  induction lfs with
  | nil => exact fun off bound frames => rfl
  | cons f lfs ih => exact fun off bound frames => ih _ _ _

/-- The scope behind the reads of some fields. -/
def bindAll (env : Env) : List LayoutField → List Int → Env
  | f :: lfs, u :: us => bindAll (env.bind f.name (.int u)) lfs us
  | _, _ => env

/-- The reads of the fields, each in the scope of those before it. -/
def Reads (env : Env) : List LayoutField → Nat → List Int → Prop
  | [], _, [] => True
  | f :: lfs, off, u :: us =>
      eval env (ldRead f off) = .ok (.read (some u)) ∧
        Reads (env.bind f.name (.int u)) lfs (off + f.width) us
  | _, _, _ => False

theorem eval_readArm_ok {env : Env} {tname bind : String} {read e : Expr} {v : Val} :
    eval env (ldReadArm tname read bind e) = .ok (.ok v) ↔
      ∃ u, eval env read = .ok (.read (some u)) ∧ eval (env.bind bind (.int u)) e = .ok (.ok v) := by
  rw [ldReadArm, eval_matchRead]
  simp only [bind_eq_ok, asRead_eq_ok]
  constructor
  · rintro ⟨_, hread, r, rfl, h⟩
    cases r with
    | none => cases h
    | some u => exact ⟨u, hread, h⟩
  · rintro ⟨u, hread, h⟩
    exact ⟨_, hread, some u, rfl, h⟩

theorem eval_tower_ok {tname : String} {v : Val} (lfs : List LayoutField) :
    ∀ {env : Env} {off : Nat} {bound : List String},
      eval env (tower tname lfs off bound) = .ok (.ok v) ↔
        ∃ us, Reads env lfs off us ∧
          eval (bindAll env lfs us)
            (ldOkCursor (bound.reverse ++ lfs.map LayoutField.name) (off + ldTotalWidth lfs 0)) =
              .ok (.ok v) := by
  induction lfs with
  | nil =>
      intro env off bound
      rw [tower, List.map_nil, List.append_nil]
      constructor
      · exact fun h => ⟨[], trivial, h⟩
      · rintro ⟨us, hus, h⟩
        cases us with
        | nil => exact h
        | cons => exact hus.elim
  | cons f lfs ih =>
      intro env off bound
      have hnames : (f.name :: bound).reverse ++ lfs.map LayoutField.name =
          bound.reverse ++ (f :: lfs).map LayoutField.name := by simp
      have hwidth : off + f.width + ldTotalWidth lfs 0 = off + ldTotalWidth (f :: lfs) 0 := by
        rw [ldTotalWidth_cons, Nat.add_assoc]
      rw [tower, eval_readArm_ok]
      constructor
      · rintro ⟨u, hread, hrest⟩
        obtain ⟨us, hus, h⟩ := ih.1 hrest
        rw [hnames, hwidth] at h
        exact ⟨u :: us, ⟨hread, hus⟩, h⟩
      · rintro ⟨us, hus, h⟩
        cases us with
        | nil => exact hus.elim
        | cons u us =>
            refine ⟨u, hus.1, ih.2 ⟨us, hus.2, ?_⟩⟩
            rw [hnames, hwidth]
            exact h

theorem eval_attachUnit_ok {env : Env} {n : String} {v : Val} {u : Int} :
    eval env (.attachUnit (ldVar n)) = .ok v ∧ v = .int u ↔
      (n ∉ deriveCtors ∧ env n = some (.int u)) ∧ v = .int u := by
  refine and_congr_left ?_
  rintro rfl
  by_cases hctor : n ∈ deriveCtors
  · rw [ldVar, if_pos hctor]
    exact iff_of_false (fun h => by cases h) fun h => h.1 hctor
  · rw [ldVar_name hctor, and_iff_right hctor, eval_attachUnit, eval_name]
    simp only [bind_eq_ok, asInt_eq_ok, typed_eq_ok, pure_eq_ok, Val.int.injEq]
    constructor
    · rintro ⟨_, henv, m, rfl, rfl⟩
      exact henv
    · exact fun henv => ⟨_, henv, u, rfl, rfl⟩

theorem eval_fieldInits_ok {env : Env} {u : LayoutField → Int} (lfs : List LayoutField) :
    eval env (ldFieldInits (lfs.map LayoutField.name)) =
        .ok (.record (lfs.map fun f => (f.name, u f))) ↔
      ∀ f ∈ lfs, f.name ∉ deriveCtors ∧ env f.name = some (.int (u f)) := by
  induction lfs with
  | nil => exact iff_of_true rfl fun _ hf => absurd hf List.not_mem_nil
  | cons f lfs ih =>
      rw [List.map_cons, List.map_cons, ldFieldInits, List.forall_mem_cons, ← ih, eval_fieldInit]
      simp only [bind_eq_ok, asInt_eq_ok, asRecord_eq_ok, pure_eq_ok, Val.record.injEq, List.cons.injEq,
        Prod.mk.injEq, true_and]
      constructor
      · rintro ⟨_, he, m, rfl, _, hrest, fs, rfl, rfl, rfl⟩
        exact ⟨(eval_attachUnit_ok.1 ⟨he, rfl⟩).1, hrest⟩
      · rintro ⟨hf, hrest⟩
        exact ⟨_, (eval_attachUnit_ok.2 ⟨hf, rfl⟩).1, _, rfl, _, hrest, _, rfl, rfl, rfl⟩

theorem eval_okCursor_ok {env : Env} {names : List String} {w : Nat} {fs : List (String × Int)}
    {p : Int} : eval env (ldOkCursor names w) = .ok (.ok (.cursor fs p)) ↔
      eval env (ldFieldInits names) = .ok (.record fs) ∧
        ∃ q, env "pos" = some (.int q) ∧ p = add q w := by
  rw [ldOkCursor, ldVar_name (by decide)]
  simp only [eval_ok, eval_cursor, eval_add, eval_name, eval_int, bind_eq_ok,
    asInt_eq_ok, asRecord_eq_ok, pure_eq_ok, typed_eq_ok, Except.ok.injEq, Val.ok.injEq,
    Val.int.injEq, exists_eq_left']
  constructor
  · rintro ⟨_, ⟨_, hfs, gs, rfl, _, ⟨_, hpos, q, rfl, rfl⟩, r, hr, rfl⟩, hcur⟩
    cases hr
    cases hcur
    exact ⟨hfs, q, hpos, rfl⟩
  · rintro ⟨hfs, q, hpos, rfl⟩
    exact ⟨_, ⟨_, hfs, fs, rfl, _, ⟨_, hpos, q, rfl, rfl⟩, _, rfl, rfl⟩, rfl⟩

theorem eval_ldRead_ok {env : Env} {f : LayoutField} {off : Nat} {r : Option Int} :
    eval env (ldRead f off) = .ok (.read r) ↔
      ∃ bs p, env "buf" = some (.bytes bs) ∧ env "pos" = some (.int p) ∧
        binGetUint bs (add p off) f.width f.order.be = .ok r := by
  rw [ldRead, ldVar_name (by decide), ldVar_name (by decide)]
  simp only [eval_getUint, eval_add, eval_name, eval_int, bind_eq_ok,
    asInt_eq_ok, asBytes_eq_ok, pure_eq_ok, typed_eq_ok, Except.ok.injEq, Val.int.injEq,
    Val.read.injEq, exists_eq_left']
  constructor
  · rintro ⟨_, hbuf, bs, rfl, _, ⟨_, hpos, p, rfl, rfl⟩, q, hq, _, hget, rfl⟩
    cases hq
    rw [Int.toNat_natCast] at hget
    exact ⟨bs, p, hbuf, hpos, hget⟩
  · rintro ⟨bs, p, hbuf, hpos, hget⟩
    refine ⟨_, hbuf, bs, rfl, _, ⟨_, hpos, p, rfl, rfl⟩, _, rfl, r, ?_, rfl⟩
    rw [Int.toNat_natCast]
    exact hget

theorem bindAll_of_not_mem {n : String} (lfs : List LayoutField) :
    ∀ {env : Env} {us : List Int}, n ∉ lfs.map LayoutField.name → bindAll env lfs us n = env n := by
  induction lfs with
  | nil => exact fun _ => rfl
  | cons f lfs ih =>
      intro env us hn
      rw [List.map_cons, List.mem_cons, not_or] at hn
      cases us with
      | nil => rfl
      | cons u us =>
          rw [bindAll, ih hn.2]
          exact if_neg hn.1

theorem bindAll_read (lfs : List LayoutField) : ∀ {env : Env} {off : Nat} {us : List Int},
    (lfs.map LayoutField.name).Nodup → Reads env lfs off us →
      ∀ f ∈ lfs, ∃ u x : Int, bindAll env lfs us f.name = some (.int u) ∧
        0 ≤ x ∧ x < 256 ^ f.width ∧ u = wrap x := by
  induction lfs with
  | nil => exact fun _ _ _ hf => absurd hf List.not_mem_nil
  | cons f lfs ih =>
      intro env off us hdistinct hreads
      cases us with
      | nil => exact hreads.elim
      | cons u us =>
          rw [List.map_cons, List.nodup_cons] at hdistinct
          rw [List.forall_mem_cons]
          refine ⟨?_, ih hdistinct.2 hreads.2⟩
          obtain ⟨bs, p, -, -, hget⟩ := eval_ldRead_ok.1 hreads.1
          obtain ⟨x, hlow, hhigh, hu⟩ := binGetUint_value hget
          refine ⟨u, x, ?_, hlow, hhigh, hu⟩
          rw [bindAll, bindAll_of_not_mem lfs hdistinct.1]
          exact if_pos rfl

theorem Reads.not_buf (lfs : List LayoutField) : ∀ {env : Env} {off : Nat} {us : List Int},
    Reads env lfs off us → ∀ f ∈ lfs.dropLast, f.name ≠ "buf" := by
  induction lfs with
  | nil => exact fun _ _ hf => absurd hf List.not_mem_nil
  | cons f lfs ih =>
      intro env off us hreads
      cases us with
      | nil => exact hreads.elim
      | cons u us =>
          cases lfs with
          | nil => exact fun _ hf => absurd hf List.not_mem_nil
          | cons g lfs =>
              rw [List.dropLast_cons_cons, List.forall_mem_cons]
              refine ⟨fun hname => ?_, ih hreads.2⟩
              cases us with
              | nil => exact hreads.2.elim
              | cons w us =>
                  obtain ⟨bs, p, hbuf, -, -⟩ := eval_ldRead_ok.1 hreads.2.1
                  rw [Env.bind, if_pos hname.symm] at hbuf
                  cases hbuf

/-- What the reader makes of a field. -/
def decoded (v : String → Int) (f : LayoutField) : Int := wrap (v f.name % 256 ^ f.width)

theorem bindAll_map {g : LayoutField → Int} (lfs : List LayoutField) : ∀ {env : Env},
    (lfs.map LayoutField.name).Nodup → ∀ f ∈ lfs, bindAll env lfs (lfs.map g) f.name = some (.int (g f)) := by
  induction lfs with
  | nil => exact fun _ _ hf => absurd hf List.not_mem_nil
  | cons f lfs ih =>
      intro env hdistinct
      rw [List.map_cons, List.nodup_cons] at hdistinct
      rw [List.forall_mem_cons, List.map_cons, bindAll]
      refine ⟨?_, ih hdistinct.2⟩
      rw [bindAll_of_not_mem lfs hdistinct.1]
      exact if_pos rfl

/-- The bytes of two's complement of some fields. -/
def laidOut (lfs : List LayoutField) (v : String → Int) : Str :=
  lfs.flatMap fun f => uintBytes (v f.name) f.width f.order.be

theorem length_uintBytes (n : Int) (w : Nat) (be : Bool) : (uintBytes n w be).length = w := by
  rw [uintBytes, length_ordered, length_leBytes]

theorem length_laidOut (lfs : List LayoutField) (v : String → Int) :
    (laidOut lfs v).length = ldTotalWidth lfs 0 := by
  induction lfs with
  | nil => rfl
  | cons f lfs ih =>
      rw [laidOut, List.flatMap_cons, List.length_append, length_uintBytes, ldTotalWidth_cons]
      exact congrArg (f.width + ·) ih

theorem reads_laidOut {v : String → Int} {p : Nat} {rest : Str} (lfs : List LayoutField) :
    ∀ {env : Env} {front : Str} {off : Nat}, front.length = p + off →
      front.length + (laidOut lfs v).length < 2 ^ 63 → env "pos" = some (.int p) →
      (lfs ≠ [] → env "buf" = some (.bytes (front ++ (laidOut lfs v ++ rest)))) →
      (∀ f ∈ lfs.dropLast, f.name ≠ "buf") → (∀ f ∈ lfs, f.name = "pos" → decoded v f = p) →
        Reads env lfs off (lfs.map (decoded v)) ∧
          bindAll env lfs (lfs.map (decoded v)) "pos" = some (.int p) := by
  induction lfs with
  | nil => exact fun _ _ hpos _ _ _ => ⟨trivial, hpos⟩
  | cons f lfs ih =>
      intro env front off hfront hfits hpos hbuf hnotbuf hnotpos
      have hsplit : laidOut (f :: lfs) v = uintBytes (v f.name) f.width f.order.be ++ laidOut lfs v := by
        rw [laidOut, List.flatMap_cons]
        rfl
      rw [hsplit, List.length_append, length_uintBytes] at hfits
      have hdata := hbuf (List.cons_ne_nil f lfs)
      rw [hsplit, List.append_assoc] at hdata
      have hread : eval env (ldRead f off) = .ok (.read (some (decoded v f))) := by
        apply eval_ldRead_ok.2
        refine ⟨_, _, hdata, hpos, ?_⟩
        have hat : add (p : Int) off = (front.length : Int) := by
          rw [add_eq (by omega) (by omega), hfront]
          push_cast
          rfl
        have hget := binGetUint_eq front (uintBytes (v f.name) f.width f.order.be)
          (laidOut lfs v ++ rest) (by rw [length_uintBytes]; omega) f.order.be
        rw [length_uintBytes, uintBytes, ordered_ordered, leNat_leBytes] at hget
        rw [hat]
        exact hget
      have hpos' : (env.bind f.name (.int (decoded v f))) "pos" = some (.int p) := by
        rw [Env.bind]
        split_ifs with hname
        · rw [hnotpos f List.mem_cons_self hname.symm]
        · exact hpos
      have hbuf' : lfs ≠ [] → (env.bind f.name (.int (decoded v f))) "buf" = some
          (.bytes ((front ++ uintBytes (v f.name) f.width f.order.be) ++ (laidOut lfs v ++ rest))) := by
        intro hne
        have hname : "buf" ≠ f.name := by
          obtain ⟨g, lfs, rfl⟩ := List.exists_cons_of_ne_nil hne
          exact (hnotbuf f List.mem_cons_self).symm
        rw [Env.bind, if_neg hname, hdata, List.append_assoc]
      have hdrop : ∀ g ∈ lfs.dropLast, g.name ≠ "buf" := by
        intro g hg
        cases lfs with
        | nil => cases hg
        | cons h lfs => exact hnotbuf g (List.mem_cons_of_mem f hg)
      have hfront' : (front ++ uintBytes (v f.name) f.width f.order.be).length =
          p + (off + f.width) := by
        rw [List.length_append, length_uintBytes, hfront, Nat.add_assoc]
      obtain ⟨hreads, hfinal⟩ := ih hfront'
        (by rw [List.length_append, length_uintBytes]; omega) hpos' hbuf' hdrop
        fun g hg => hnotpos g (List.mem_cons_of_mem f hg)
      exact ⟨⟨hread, hreads⟩, hfinal⟩

/-- The scope of the decoder. -/
def decodeEnv (buf : Str) (pos : Int) : Env := (noEnv.bind "buf" (.bytes buf)).bind "pos" (.int pos)

theorem fromBytes_ok {tname : String} {lfs : List LayoutField} {buf : Str} {pos : Int} {v : Val} :
    fromBytes tname lfs buf pos = .ok (.ok v) ↔
      ¬ (buf.length : Int) < add pos (ldTotalWidth lfs 0) ∧
        ∃ us, Reads (decodeEnv buf pos) lfs 0 us ∧
          eval (bindAll (decodeEnv buf pos) lfs us)
            (ldOkCursor (lfs.map LayoutField.name) (ldTotalWidth lfs 0)) = .ok (.ok v) := by
  have htower : eval (decodeEnv buf pos) (tower tname lfs 0 []) = .ok (.ok v) ↔ _ :=
    eval_tower_ok lfs
  rw [List.reverse_nil, List.nil_append, Nat.zero_add] at htower
  have hcond : eval (decodeEnv buf pos) (.lt (.arrayLength (ldVar "buf"))
      (.add (ldVar "pos") (.int (ldTotalWidth lfs 0)))) =
        .ok (.bool ((buf.length : Int) < add pos (ldTotalWidth lfs 0))) := by
    rw [ldVar_name (by decide), ldVar_name (by decide)]
    rfl
  rw [← htower, fromBytes, ldFromBytesBody]
  change eval (decodeEnv buf pos) _ = _ ↔ _
  rw [eval_ite, hcond, ok_bind, Val.asBool, ok_bind, ldTower_eq]
  by_cases hshort : (buf.length : Int) < add pos (ldTotalWidth lfs 0)
  · rw [decide_eq_true hshort]
    exact iff_of_false (fun h => by cases h) fun h => h.1 hshort
  · rw [decide_eq_false hshort, and_iff_right hshort]
    rfl

namespace LayoutType

variable (T : LayoutType)

theorem add_cancel_of_fits {q : Int} {n w : Nat} (hq : InRange q) (hfits : n + w < 2 ^ 63)
    (h : ((n + w : Nat) : Int) = add q w) : q = n := by
  obtain ⟨hlow, hhigh⟩ := hq
  unfold add wrap at h
  push_cast at h
  omega

theorem harmless_of_roundTrips {v : String → Int} {p : T.Placed} (h : T.RoundTrips v p) :
    T.Harmless v p := by
  have hlayout : written T.fields v = laidOut T.fields v :=
    Except.ok.inj ((toBytes_eq T v).symm.trans h.layout)
  obtain ⟨bs, u, hbytes, hdecode, hvalues⟩ := h.decode
  have hbs : bs = laidOut T.fields v := Except.ok.inj (hbytes.symm.trans h.layout)
  subst hbs
  obtain ⟨-, us, hreads, hcursor⟩ := fromBytes_ok.1 hdecode
  obtain ⟨hinits, q, hpos, hend⟩ := eval_okCursor_ok.1 hcursor
  have hfields := (eval_fieldInits_ok T.fields).1 hinits
  have hfits := p.fits
  constructor
  case bytes => exact (written_eq_iff T.fields fun f hf => (T.width_range f hf).1).1 hlayout
  case ctor => exact fun f hf => (hfields f hf).1
  case buf => exact Reads.not_buf T.fields hreads
  case pos =>
    intro f hf hname
    obtain ⟨w, x, hread, hlow, hhigh, hw⟩ := bindAll_read T.fields T.distinct hreads f hf
    have hq : q = w := by
      rw [hname, hpos] at hread
      exact Val.int.inj (Option.some.inj hread)
    have hu : u f = w := Val.int.inj (Option.some.inj ((hfields f hf).2.symm.trans hread))
    rw [length_laidOut] at hend
    have hpre : q = p.pre.length := by
      refine add_cancel_of_fits ?_ ?_ hend
      · rw [hq, hw]
        exact wrap_inRange x
      · have hwidth : T.width = ldTotalWidth T.fields 0 := rfl
        omega
    rw [← hvalues f hf, hu, hw, wrap_emod (T.width_range f hf).2, Int.emod_eq_of_lt hlow hhigh, ← hw, ← hq,
      hpre]

theorem roundTrips_of_harmless {v : String → Int} {p : T.Placed} (h : T.Harmless v p) :
    T.RoundTrips v p := by
  have hlayout : written T.fields v = laidOut T.fields v :=
    (written_eq_iff T.fields fun f hf => (T.width_range f hf).1).2 h.bytes
  have hbytes : toBytes T.fields (T.record v) = .ok (laidOut T.fields v) := hlayout ▸ toBytes_eq T v
  have hfits := p.fits
  have hwidth : (laidOut T.fields v).length = T.width := length_laidOut T.fields v
  refine ⟨hbytes, laidOut T.fields v, decoded v, hbytes, fromBytes_ok.2 ⟨?_, ?_⟩, ?_⟩
  · have hsum : add (p.pre.length : Int) (ldTotalWidth T.fields 0) =
        ((p.pre.length + T.width : Nat) : Int) := by
      change add (p.pre.length : Int) T.width = _
      rw [add_eq (by omega) (by omega)]
      push_cast
      rfl
    rw [hsum, List.length_append, List.length_append, hwidth]
    omega
  · have hall : Reads (decodeEnv (p.pre ++ (laidOut T.fields v ++ p.rest)) p.pre.length)
        T.fields 0 (T.fields.map (decoded v)) ∧
          bindAll (decodeEnv (p.pre ++ (laidOut T.fields v ++ p.rest)) p.pre.length) T.fields
            (T.fields.map (decoded v)) "pos" = some (.int (p.pre.length : Nat)) :=
      reads_laidOut T.fields (Nat.add_zero p.pre.length).symm (by omega) rfl (fun _ => rfl)
        h.buf h.pos
    obtain ⟨hreads, hpos⟩ := hall
    refine ⟨_, hreads, eval_okCursor_ok.2 ⟨?_, _, hpos, ?_⟩⟩
    · apply (eval_fieldInits_ok T.fields).2
      exact fun f hf => ⟨h.ctor f hf, bindAll_map T.fields T.distinct f hf⟩
    · change _ = add (p.pre.length : Int) T.width
      rw [hwidth, add_eq (by omega) (by omega)]
      push_cast
      rfl
  · intro f hf
    rw [decoded, wrap_emod (T.width_range f hf).2, Int.emod_emod_of_dvd _ dvd_rfl]

end LayoutType

/-- The codec of a record type round-trips where it is harmless, and the number that it rests on
where the writer does not round. -/
theorem layout_exact_iff (T : LayoutType) (v : String → Int) (p : T.Placed) :
    (T.RoundTrips v p ↔ T.Harmless v p) ∧
      ∀ (buf : Str) (n : Int) (w : Nat) (be : Bool), 1 ≤ w → w ≤ 8 → buf.length + w < 2 ^ 63 →
        (Survives buf n w be ↔ Shiftable n w) :=
  ⟨⟨T.harmless_of_roundTrips, T.roundTrips_of_harmless⟩,
    fun _ _ _ be hpos hwidth hfits => survives_iff hpos hwidth hfits be⟩

/-- A record with one field, a `U16` in network order. -/
def u16Type : LayoutType where
  name := "Port"
  decls := [⟨"port", .dim (.name "U16") (.sym "Layout$be")⟩]
  fields := [⟨"port", 2, .bigEndian⟩]
  derived := by decide +kernel
  distinct := by decide

/-- A port in network order, and a count. -/
def endpointType : LayoutType where
  name := "Endpoint"
  decls := [⟨"port", .dim (.name "U16") (.sym "Layout$be")⟩, ⟨"count", .dim (.name "U8") (.sym "be")⟩]
  fields := [⟨"port", 2, .bigEndian⟩, ⟨"count", 1, .bigEndian⟩]
  derived := by decide +kernel
  distinct := by decide

/-- A tag behind a field named `pos`, which holds another position than its own. -/
def posType : LayoutType where
  name := "Entry"
  decls := [⟨"pos", .dim (.name "U8") (.sym "be")⟩, ⟨"tag", .dim (.name "U8") (.sym "be")⟩]
  fields := [⟨"pos", 1, .bigEndian⟩, ⟨"tag", 1, .bigEndian⟩]
  derived := by decide +kernel
  distinct := by decide

/-- An array that holds the bytes of a record and no others. -/
def alone (T : LayoutType) (h : T.width < 2 ^ 63) : T.Placed := ⟨[], [], by simpa using h⟩

theorem layout_exact_port :
    endpointType.RoundTrips (fun _ => 80) (alone endpointType (by decide +kernel)) ∧
      Survives [] 80 2 true := by
  have hexact := layout_exact_iff endpointType (fun _ => 80) (alone endpointType (by decide +kernel))
  refine ⟨hexact.1.2 ⟨fun f _ => .inl (by decide), by decide, by decide, ?_⟩,
    (hexact.2 [] 80 2 true (by decide) (by decide) (by decide)).2 (.inl (by decide))⟩
  have hnames : ∀ f ∈ endpointType.fields, f.name ≠ "pos" := by decide
  exact fun f hf hname => absurd hname (hnames f hf)

/-- `-1`, the largest number of its width, loses its upper byte; and behind a field named `pos` that
holds 5, the tag is read five bytes too far. -/
theorem not_roundTrips :
    ¬ u16Type.RoundTrips (fun _ => -1) (alone u16Type (by decide +kernel)) ∧
      ¬ posType.RoundTrips (fun _ => 5) (alone posType (by decide +kernel)) := by
  constructor
  · intro h
    have hnot : ¬ toBytes u16Type.fields (u16Type.record fun _ => -1) =
        .ok (u16Type.layout fun _ => -1) := by decide +kernel
    exact hnot h.layout
  · intro h
    have hpos := (posType.harmless_of_roundTrips h).pos _ List.mem_cons_self rfl
    exact absurd hpos (by decide +kernel)

end Kaikai.LayoutDerive
