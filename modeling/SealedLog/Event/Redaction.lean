import SealedLog.Json.Value

/-!
# Redaction

Before an event is put into text, values of its parameters that must not be kept are
masked. A redactor names fields: some for every operation, some for one. Wherever a
member of such a name stands, at any depth, its value is replaced by a mask and not
looked into; everything else stays as it is.
-/

namespace SealedLog

/-- Names of fields whose values are masked: those of `everywhere` in every operation,
those listed with an operation in that operation too. The empty redactor masks
nothing. -/
structure Redactor where
  everywhere : List String
  perOperation : List (String × List String)
deriving DecidableEq, Repr

namespace Redactor

def maskNothing : Redactor := ⟨[], []⟩

def ofFields (everywhere : List String) : Redactor := ⟨everywhere, []⟩

def withOperation (r : Redactor) (operation : String) (fields : List String) : Redactor :=
  { r with perOperation := r.perOperation ++ [(operation, fields)] }

def masks (r : Redactor) (operation field : String) : Bool :=
  r.everywhere.contains field ||
    r.perOperation.any fun (o, fields) => o == operation && fields.contains field

def mask : Json := .str "[REDACTED]"

mutual

/-- The value with the masked fields of an operation replaced. -/
def redact (r : Redactor) (operation : String) : Json → Json
  | .arr items => .arr (redactItems r operation items)
  | .obj members => .obj (redactMembers r operation members)
  | j => j

def redactItems (r : Redactor) (operation : String) : List Json → List Json
  | [] => []
  | j :: rest => redact r operation j :: redactItems r operation rest

def redactMembers (r : Redactor) (operation : String) :
    List (String × Json) → List (String × Json)
  | [] => []
  | (name, j) :: rest =>
    (name, if r.masks operation name then mask else redact r operation j) ::
      redactMembers r operation rest

end

end Redactor

end SealedLog
