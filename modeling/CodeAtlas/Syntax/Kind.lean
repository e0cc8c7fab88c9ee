/-
  Kinds of syntax nodes and names of child fields.

  A grammar has some hundreds of kinds; the ones that the library looks for
  have a constructor each, and all others keep their name. A token and a
  construct may share a kind (`class`, `function`): whether a node is a named
  construct is said by the node, not by its kind.
-/

namespace CodeAtlas.Syntax

/-- The kind of a syntax node. -/
inductive Kind where
  | program
  | comment
  | identifier
  | propertyIdentifier
  | privatePropertyIdentifier
  | shorthandPropertyIdentifier
  | shorthandPropertyIdentifierPattern
  | string
  | importStatement
  | importClause
  | namespaceImport
  | namedImports
  | importSpecifier
  | importRequireClause
  | exportStatement
  | exportClause
  | exportSpecifier
  | lexicalDeclaration
  | variableDeclaration
  | variableDeclarator
  | objectPattern
  | pairPattern
  | object
  | pair
  | callExpression
  | arguments
  | memberExpression
  | assignmentExpression
  | assignmentPattern
  | restPattern
  | requiredParameter
  | optionalParameter
  | decorator
  | functionDeclaration
  | generatorFunctionDeclaration
  | functionExpression
  | function
  | generatorFunction
  | arrowFunction
  | classDeclaration
  | abstractClassDeclaration
  | classExpression
  | classBody
  | classHeritage
  | extendsClause
  | implementsClause
  | methodDefinition
  | expressionStatement
  | typeAliasDeclaration
  | interfaceDeclaration
  | enumDeclaration
  | ambientDeclaration
  | static
  | staticGet
  | get
  | set
  | default
  | type
  | const
  | other (name : String)
  deriving DecidableEq, Repr

namespace Kind

/-- The name of a kind in the grammar. -/
def name : Kind → String
  | program => "program"
  | comment => "comment"
  | identifier => "identifier"
  | propertyIdentifier => "property_identifier"
  | privatePropertyIdentifier => "private_property_identifier"
  | shorthandPropertyIdentifier => "shorthand_property_identifier"
  | shorthandPropertyIdentifierPattern => "shorthand_property_identifier_pattern"
  | string => "string"
  | importStatement => "import_statement"
  | importClause => "import_clause"
  | namespaceImport => "namespace_import"
  | namedImports => "named_imports"
  | importSpecifier => "import_specifier"
  | importRequireClause => "import_require_clause"
  | exportStatement => "export_statement"
  | exportClause => "export_clause"
  | exportSpecifier => "export_specifier"
  | lexicalDeclaration => "lexical_declaration"
  | variableDeclaration => "variable_declaration"
  | variableDeclarator => "variable_declarator"
  | objectPattern => "object_pattern"
  | pairPattern => "pair_pattern"
  | object => "object"
  | pair => "pair"
  | callExpression => "call_expression"
  | arguments => "arguments"
  | memberExpression => "member_expression"
  | assignmentExpression => "assignment_expression"
  | assignmentPattern => "assignment_pattern"
  | restPattern => "rest_pattern"
  | requiredParameter => "required_parameter"
  | optionalParameter => "optional_parameter"
  | decorator => "decorator"
  | functionDeclaration => "function_declaration"
  | generatorFunctionDeclaration => "generator_function_declaration"
  | functionExpression => "function_expression"
  | function => "function"
  | generatorFunction => "generator_function"
  | arrowFunction => "arrow_function"
  | classDeclaration => "class_declaration"
  | abstractClassDeclaration => "abstract_class_declaration"
  | classExpression => "class"
  | classBody => "class_body"
  | classHeritage => "class_heritage"
  | extendsClause => "extends_clause"
  | implementsClause => "implements_clause"
  | methodDefinition => "method_definition"
  | expressionStatement => "expression_statement"
  | typeAliasDeclaration => "type_alias_declaration"
  | interfaceDeclaration => "interface_declaration"
  | enumDeclaration => "enum_declaration"
  | ambientDeclaration => "ambient_declaration"
  | static => "static"
  | staticGet => "static get"
  | get => "get"
  | set => "set"
  | default => "default"
  | type => "type"
  | const => "const"
  | other name => name

/-- The kinds with a constructor of their own. -/
def known : List Kind :=
  [program, comment, identifier, propertyIdentifier, privatePropertyIdentifier,
   shorthandPropertyIdentifier, shorthandPropertyIdentifierPattern, string, importStatement,
   importClause, namespaceImport, namedImports, importSpecifier, importRequireClause,
   exportStatement, exportClause, exportSpecifier, lexicalDeclaration, variableDeclaration,
   variableDeclarator, objectPattern, pairPattern, object, pair, callExpression, arguments,
   memberExpression, assignmentExpression, assignmentPattern, restPattern, requiredParameter,
   optionalParameter, decorator, functionDeclaration, generatorFunctionDeclaration,
   functionExpression, function, generatorFunction, arrowFunction, classDeclaration,
   abstractClassDeclaration, classExpression, classBody, classHeritage, extendsClause,
   implementsClause, methodDefinition, expressionStatement, typeAliasDeclaration,
   interfaceDeclaration, enumDeclaration, ambientDeclaration, static,
   staticGet, get, set, default, type, const]

/-- The kind that a grammar calls `name`. -/
def ofName (name : String) : Kind := (known.find? fun k => k.name = name).getD (other name)

/-- Reading a name loses nothing. -/
theorem name_ofName (s : String) : (ofName s).name = s := by
  unfold ofName
  cases h : known.find? fun k => k.name = s with
  | none => rfl
  | some k => simpa using List.find?_some h

/-- Whether a node of this kind declares a function by a statement. -/
def isFunctionDeclaration (k : Kind) : Bool :=
  k = functionDeclaration || k = generatorFunctionDeclaration

/-- Whether a node of this kind is a function used as a value. -/
def isFunctionValue (k : Kind) : Bool :=
  k = arrowFunction || k = functionExpression || k = function || k = generatorFunction

/-- Whether a node of this kind declares a class by a statement. -/
def isClassDeclaration (k : Kind) : Bool := k = classDeclaration || k = abstractClassDeclaration

/-- Whether a node of this kind declares variables. -/
def isVariableDeclaration (k : Kind) : Bool := k = lexicalDeclaration || k = variableDeclaration

/-- Whether a node of this kind declares a type that can be exported. -/
def isTypeDeclaration (k : Kind) : Bool := k = typeAliasDeclaration || k = interfaceDeclaration

end Kind

/-- The name under which a node knows one of its children. -/
inductive Field where
  | name
  | body
  | parameters
  | parameter
  | arguments
  | function
  | value
  | object
  | property
  | pattern
  | left
  | right
  | source
  | declaration
  | renamed
  | key
  deriving DecidableEq, Repr

namespace Field

/-- The name of a field in the grammar. -/
def label : Field → String
  | name => "name"
  | body => "body"
  | parameters => "parameters"
  | parameter => "parameter"
  | arguments => "arguments"
  | function => "function"
  | value => "value"
  | object => "object"
  | property => "property"
  | pattern => "pattern"
  | left => "left"
  | right => "right"
  | source => "source"
  | declaration => "declaration"
  | renamed => "alias"
  | key => "key"

/-- All fields that the library asks for. -/
def all : List Field :=
  [name, body, parameters, parameter, arguments, function, value, object, property, pattern, left,
   right, source, declaration, renamed, key]

/-- The field that a grammar calls so, if the library asks for it. -/
def ofLabel? (s : String) : Option Field := all.find? fun f => f.label = s

end Field

end CodeAtlas.Syntax
