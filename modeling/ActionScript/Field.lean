/-!
# Fields

A child may fill a named slot of its parent.  Rules assign the slot while the tree is built, so
looking a slot up is a scan over the direct children.
-/

set_option autoImplicit false

namespace ActionScript

/-- Names of the slots a child can fill. -/
inductive Field where
  | accessor | alternative | metadata | argument | arguments | attribute | base | body
  | closeTag | condition | consequence | constructor | content | declarator | element | expression
  | finalizer | function | handler | index | initializer | interfaces | key | label | left
  | modifier | name | nameSpace | object | openTag | operator | parameter | parameters | property
  | returnType | right | source | superclass | type | typeArguments | update | value
  deriving DecidableEq, Repr

namespace Field

/-- Every field, in order. -/
def all : List Field :=
  [.accessor, .alternative, .metadata, .argument, .arguments, .attribute, .base, .body,
   .closeTag, .condition, .consequence, .constructor, .content, .declarator, .element,
   .expression, .finalizer, .function, .handler, .index, .initializer, .interfaces, .key, .label,
   .left, .modifier, .name, .nameSpace, .object, .openTag, .operator, .parameter, .parameters,
   .property, .returnType, .right, .source, .superclass, .type, .typeArguments, .update, .value]

/-- The written name of a field. -/
def spelling : Field → String
  | .accessor => "accessor"
  | .alternative => "alternative"
  | .metadata => "annotation"
  | .argument => "argument"
  | .arguments => "arguments"
  | .attribute => "attribute"
  | .base => "base"
  | .body => "body"
  | .closeTag => "close_tag"
  | .condition => "condition"
  | .consequence => "consequence"
  | .constructor => "constructor"
  | .content => "content"
  | .declarator => "declarator"
  | .element => "element"
  | .expression => "expression"
  | .finalizer => "finalizer"
  | .function => "function"
  | .handler => "handler"
  | .index => "index"
  | .initializer => "initializer"
  | .interfaces => "interfaces"
  | .key => "key"
  | .label => "label"
  | .left => "left"
  | .modifier => "modifier"
  | .name => "name"
  | .nameSpace => "namespace"
  | .object => "object"
  | .openTag => "open_tag"
  | .operator => "operator"
  | .parameter => "parameter"
  | .parameters => "parameters"
  | .property => "property"
  | .returnType => "return_type"
  | .right => "right"
  | .source => "source"
  | .superclass => "superclass"
  | .type => "type"
  | .typeArguments => "type_arguments"
  | .update => "update"
  | .value => "value"

/-- Reads a written name. -/
def ofName? (name : String) : Option Field := all.find? fun f => f.spelling == name

end Field

end ActionScript
