import SteleDb.Storage.Record

/-!
# The catalog and the access policy

The catalog keeps, for each table name, the schema versions the name has had, on the system-time
axis: a create opens a version, a drop ends it, and a name that is created again gets a further
version.  Resolving a name at a snapshot picks the version whose period contains it.

Secondary indexes are kept by name, for live tables only.

The access policy is current state only: who owns a table name, and who was granted what on it.
Names are byte strings, ordered as such.
-/

namespace SteleDb

/-- The name of a table, column or role. -/
abbrev Name := Bytes

/-- Identifier of a schema version (a `u32`). -/
abbrev SchemaId := ℕ

/-- The largest `u32`. -/
def u32Max : ℕ := 2 ^ 32 - 1

/-- The type of a column. -/
inductive LogicalType where
  | int4
  | int8
  | text
  | bool
  | timestamp
  | timestampTz
  | date
  | period
  | uuid
  | bytea
  | float8
  deriving DecidableEq, Repr

/-- A column. -/
structure ColumnDef where
  /-- Its name. -/
  name : Name
  /-- Its type. -/
  ty : LogicalType
  /-- A column has a name. -/
  nonempty : name ≠ [] := by decide
  deriving DecidableEq, Repr

/-- The period columns of a table with a valid-time axis. -/
structure ValidTimeSpec where
  /-- Column of the inclusive start. -/
  fromColumn : Name
  /-- Column of the exclusive end. -/
  toColumn : Name
  /-- They are two columns. -/
  distinct : fromColumn ≠ [] ∧ toColumn ≠ [] ∧ fromColumn ≠ toColumn := by decide
  deriving DecidableEq, Repr

/-- The shape of a table over one period of system time; the first column is the business key. -/
structure TableSchema where
  /-- Its identifier. -/
  schemaId : SchemaId
  /-- The columns in order. -/
  columns : List ColumnDef
  /-- The valid-time axis, if the table has one. -/
  validTime : Option ValidTimeSpec
  deriving DecidableEq, Repr

/-- A schema with the period in which it is in force. -/
structure SchemaVersion where
  /-- Inclusive start. -/
  sysFrom : SystemTimeMicros
  /-- Exclusive end, `systemTimeOpen` while in force. -/
  sysTo : SystemTimeMicros
  /-- The schema. -/
  schema : TableSchema
  deriving DecidableEq, Repr

/-- The family of an access structure. -/
inductive IndexKind where
  | btree
  | hash
  deriving DecidableEq, Repr

/-- A secondary index. -/
structure IndexDef where
  /-- Its name. -/
  name : Name
  /-- The table it accelerates. -/
  table : Name
  /-- Its family. -/
  kind : IndexKind
  /-- The indexed columns. -/
  columns : List Name
  deriving DecidableEq, Repr

/-- Errors of the catalog. -/
inductive CatalogError where
  /-- The name is live. -/
  | tableAlreadyExists (table : Name)
  /-- The name is not live. -/
  | unknownTable (table : Name)
  /-- Two columns have one name. -/
  | duplicateColumn (column : Name)
  /-- The change is stamped with the open sentinel. -/
  | systemTimeExhausted (table : Name) (at_ : SystemTimeMicros)
  /-- The change is not after the start of the version it ends. -/
  | nonMonotonicSchemaChange (table : Name) (at_ currentFrom : SystemTimeMicros)
  /-- The name was dropped after the instant of its creation. -/
  | tableRecreatedBeforeDrop (table : Name) (at_ droppedAt : SystemTimeMicros)
  /-- No schema identifier is left. -/
  | schemaIdExhausted
  /-- An index has no name. -/
  | invalidIndexName
  /-- An index has no columns. -/
  | indexHasNoColumns (index : Name)
  /-- The name of an index is taken. -/
  | indexAlreadyExists (index : Name)
  /-- There is no such index. -/
  | unknownIndex (index : Name)
  /-- An indexed column is not one of the table. -/
  | indexColumnUnknown (index column : Name)
  /-- An indexed column is the business key. -/
  | indexOnBusinessKey (index column : Name)
  deriving DecidableEq, Repr

/-- The schema versions of every name. -/
structure Catalog where
  /-- The versions of a name, oldest first. -/
  tables : OrdMap Name (List SchemaVersion) := ∅
  /-- The secondary indexes of live tables. -/
  indexes : OrdMap Name IndexDef := ∅
  /-- The next schema identifier. -/
  nextSchemaId : SchemaId := 1

namespace Catalog

/-- The version of a name in force now. -/
def openVersion (c : Catalog) (name : Name) : Option SchemaVersion :=
  (c.tables[name]?.getD []).getLast?.filter fun v => v.sysTo = systemTimeOpen

/-- The schema of a name at a snapshot: of the versions started by then the last one, if it has
not ended by then. -/
def resolve (c : Catalog) (name : Name) (snapshot : SystemTimeMicros) : Option TableSchema :=
  (((c.tables[name]?.getD []).takeWhile fun v => v.sysFrom ≤ snapshot).getLast?.filter
    fun v => snapshot < v.sysTo).map SchemaVersion.schema

/-- The first name that occurs twice, at its second occurrence. -/
def firstDuplicate : List Name → List Name → Option Name
  | _, [] => none
  | seen, c :: cs => if c ∈ seen then some c else firstDuplicate (seen ++ [c]) cs

/-- `CREATE TABLE`. -/
def createTable (c : Catalog) (name : Name) (columns : List ColumnDef)
    (validTime : Option ValidTimeSpec) (at_ : SystemTimeMicros) :
    Except CatalogError (Catalog × SchemaId) :=
  if systemTimeOpen ≤ at_ then .error (.systemTimeExhausted name at_)
  else if (c.openVersion name).isSome then .error (.tableAlreadyExists name)
  else if u32Max ≤ c.nextSchemaId then .error .schemaIdExhausted
  else match firstDuplicate [] (columns.map ColumnDef.name) with
    | some column => .error (.duplicateColumn column)
    | none =>
      let version : SchemaVersion := ⟨at_, systemTimeOpen, ⟨c.nextSchemaId, columns, validTime⟩⟩
      let versions := c.tables[name]?.getD []
      match versions.getLast?.filter fun last => at_ < last.sysTo with
      | some last => .error (.tableRecreatedBeforeDrop name at_ last.sysTo)
      | none =>
        .ok ({ c with
               tables := c.tables.insert name (versions ++ [version])
               nextSchemaId := c.nextSchemaId + 1 }, c.nextSchemaId)

/-- `DROP TABLE`; the indexes of the table go with it. -/
def dropTable (c : Catalog) (name : Name) (at_ : SystemTimeMicros) :
    Except CatalogError (Catalog × SchemaId) :=
  match c.openVersion name with
  | none => .error (.unknownTable name)
  | some current =>
    if systemTimeOpen ≤ at_ then .error (.systemTimeExhausted name at_)
    else if at_ ≤ current.sysFrom then
      .error (.nonMonotonicSchemaChange name at_ current.sysFrom)
    else
      let versions := (c.tables[name]?.getD []).dropLast ++ [{ current with sysTo := at_ }]
      .ok ({ c with
             tables := c.tables.insert name versions
             indexes := c.indexes.filter fun _ def_ => def_.table ≠ name },
        current.schema.schemaId)

/-- Build the definition of an index. -/
def newIndex (name table : Name) (kind : IndexKind) (columns : List Name) :
    Except CatalogError IndexDef :=
  if name = [] then .error .invalidIndexName
  else if columns = [] then .error (.indexHasNoColumns name)
  else .ok ⟨name, table, kind, columns⟩

/-- The first indexed column that cannot be indexed. -/
def checkIndexColumns (index : Name) (schema : TableSchema) : List Name → Except CatalogError Unit
  | [] => .ok ()
  | column :: columns =>
    if column ∉ schema.columns.map ColumnDef.name then .error (.indexColumnUnknown index column)
    else if (schema.columns.map ColumnDef.name).head? = some column then
      .error (.indexOnBusinessKey index column)
    else checkIndexColumns index schema columns

/-- `CREATE INDEX`. -/
def createIndex (c : Catalog) (def_ : IndexDef) : Except CatalogError Catalog :=
  if c.indexes.contains def_.name then .error (.indexAlreadyExists def_.name)
  else match c.openVersion def_.table with
    | none => .error (.unknownTable def_.table)
    | some current =>
      match checkIndexColumns def_.name current.schema def_.columns with
      | .error e => .error e
      | .ok () => .ok { c with indexes := c.indexes.insert def_.name def_ }

/-- `DROP INDEX`. -/
def dropIndex (c : Catalog) (name : Name) : Except CatalogError Catalog :=
  if c.indexes.contains name then .ok { c with indexes := c.indexes.erase name }
  else .error (.unknownIndex name)

end Catalog

/-! ### Access policy -/

/-- What can be granted on a table. -/
inductive Privilege where
  /-- Read rows. -/
  | select
  /-- Add rows. -/
  | insert
  /-- Change rows. -/
  | update
  /-- Remove rows. -/
  | delete
  deriving DecidableEq, Repr

/-- Who a privilege is granted to. -/
inductive Grantee where
  /-- One role. -/
  | role (name : Name)
  /-- Every role. -/
  | everyone
  deriving DecidableEq, Repr

/-- What a password is checked against. -/
structure ScramVerifier where
  /-- Iterations of the key derivation. -/
  iterations : Fin (2 ^ 32)
  /-- The salt. -/
  salt : Bytes
  /-- The stored key. -/
  storedKey : Fin 32 → Fin 256
  /-- The server key. -/
  serverKey : Fin 32 → Fin 256
  deriving DecidableEq

/-- A role. -/
structure Role where
  /-- Its credential. -/
  verifier : ScramVerifier
  /-- The role passes every check. -/
  superuser : Bool
  deriving DecidableEq

/-- Owners and grants. -/
structure AccessControl where
  /-- The owner of a table name. -/
  owners : OrdMap Name Name := ∅
  /-- The privileges granted. -/
  grants : Finset (Name × Grantee × Privilege) := ∅

namespace AccessControl

/-- `GRANT`. -/
def grant (a : AccessControl) (table : Name) (grantee : Grantee) (privileges : List Privilege) :
    AccessControl :=
  { a with grants := a.grants ∪ (privileges.map fun p => (table, grantee, p)).toFinset }

/-- `REVOKE`. -/
def revoke (a : AccessControl) (table : Name) (grantee : Grantee) (privileges : List Privilege) :
    AccessControl :=
  { a with grants := a.grants \ (privileges.map fun p => (table, grantee, p)).toFinset }

/-- Forget the owner of a name and every grant on it. -/
def forgetTable (a : AccessControl) (table : Name) : AccessControl where
  owners := a.owners.erase table
  grants := a.grants.filter fun g => g.1 ≠ table

/-- Forget every grant to a role. -/
def forgetRole (a : AccessControl) (role : Name) : AccessControl :=
  { a with grants := a.grants.filter fun g => g.2.1 ≠ .role role }

/-- The role holds the privilege, by its own grant or by one to everyone. -/
def holds (a : AccessControl) (role table : Name) (privilege : Privilege) : Bool :=
  (table, .role role, privilege) ∈ a.grants || (table, .everyone, privilege) ∈ a.grants

end AccessControl

end SteleDb
