/-
  Module descriptions.
-/
import ClassDoc.Literal
namespace ClassDoc

/-- A module that is required. -/
structure ModuleRequire where
  module : String
  access : UInt16
  version : Option String
  deriving DecidableEq, Inhabited

/-- A package that is exported or opened, to some modules or to all. -/
structure ModulePackage where
  package : String
  access : UInt16
  targets : List String
  deriving DecidableEq, Inhabited

/-- A service and what implements it. -/
structure ModuleProvide where
  service : String
  implementations : List String
  deriving DecidableEq, Inhabited

/-- The description of a module. -/
structure ModuleInfo where
  name : String
  access : UInt16
  version : Option String := none
  requires : List ModuleRequire := []
  exports : List ModulePackage := []
  opens : List ModulePackage := []
  uses : List String := []
  provides : List ModuleProvide := []
  packages : List String := []
  mainClass : Option String := none
  deriving DecidableEq, Inhabited

instance : Literal ModuleRequire where
  literal r := Literal.record "ModuleRequire" [("module", literal r.module), ("access", literal r.access),
    ("version", literal r.version)]

instance : Literal ModulePackage where
  literal p := Literal.record "ModulePackage" [("package", literal p.package), ("access", literal p.access),
    ("to", literal p.targets)]

instance : Literal ModuleProvide where
  literal p := Literal.record "ModuleProvide" [("service", literal p.service), ("with", literal p.implementations)]

instance : Literal ModuleInfo where
  literal m := Literal.record "Module" [("name", literal m.name), ("access", literal m.access),
    ("version", literal m.version), ("requires", literal m.requires), ("exports", literal m.exports),
    ("opens", literal m.opens), ("uses", literal m.uses), ("provides", literal m.provides),
    ("packages", literal m.packages), ("main_class", literal m.mainClass)]

end ClassDoc
