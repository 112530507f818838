/-
This file names the kinds of nodes in a script's syntax tree.
-/

namespace ImportMeter.Script

/-- What a piece of a script is. A `mark` is punctuation or a keyword that has no kind of its own; a
`blank` is white space between tokens. -/
inductive Kind where
  | mark
  | blank
  | program
  | comment
  | htmlComment
  | hashBangLine
  | importStatement
  | importClause
  | namespaceImport
  | namedImports
  | importSpecifier
  | importAttribute
  | exportStatement
  | namespaceExport
  | exportClause
  | exportSpecifier
  | expressionStatement
  | variableDeclaration
  | lexicalDeclaration
  | variableDeclarator
  | functionDeclaration
  | generatorFunctionDeclaration
  | classDeclaration
  | statementBlock
  | ifStatement
  | elseClause
  | switchStatement
  | switchBody
  | switchCase
  | switchDefault
  | forStatement
  | forInStatement
  | whileStatement
  | doStatement
  | tryStatement
  | catchClause
  | finallyClause
  | withStatement
  | breakStatement
  | continueStatement
  | debuggerStatement
  | returnStatement
  | throwStatement
  | emptyStatement
  | labeledStatement
  | parenthesizedExpression
  | sequenceExpression
  | assignmentExpression
  | augmentedAssignmentExpression
  | awaitExpression
  | unaryExpression
  | binaryExpression
  | ternaryExpression
  | updateExpression
  | newExpression
  | yieldExpression
  | subscriptExpression
  | memberExpression
  | callExpression
  | metaProperty
  | optionalChain
  | arguments
  | spreadElement
  | identifier
  | propertyIdentifier
  | privatePropertyIdentifier
  | shorthandPropertyIdentifier
  | shorthandPropertyIdentifierPattern
  | statementIdentifier
  | thisWord
  | superWord
  | number
  | string
  | stringFragment
  | escapeSequence
  | htmlCharacterReference
  | templateString
  | templateSubstitution
  | regex
  | regexPattern
  | regexFlags
  | trueWord
  | falseWord
  | nullWord
  | undefinedWord
  | importWord
  | object
  | objectPattern
  | pair
  | pairPattern
  | objectAssignmentPattern
  | assignmentPattern
  | restPattern
  | array
  | arrayPattern
  | computedPropertyName
  | methodDefinition
  | functionExpression
  | generatorFunction
  | arrowFunction
  | formalParameters
  | classExpression
  | classHeritage
  | classBody
  | classStaticBlock
  | fieldDefinition
  | decorator
  | jsxElement
  | jsxOpeningElement
  | jsxClosingElement
  | jsxSelfClosingElement
  | jsxAttribute
  | jsxExpression
  | jsxNamespaceName
  | jsxText
  deriving DecidableEq

namespace Kind

/-- The name under which a kind appears in diagnostics. -/
def name : Kind → String
  | .mark => ""
  | .blank => ""
  | .program => "program"
  | .comment => "comment"
  | .htmlComment => "html_comment"
  | .hashBangLine => "hash_bang_line"
  | .importStatement => "import_statement"
  | .importClause => "import_clause"
  | .namespaceImport => "namespace_import"
  | .namedImports => "named_imports"
  | .importSpecifier => "import_specifier"
  | .importAttribute => "import_attribute"
  | .exportStatement => "export_statement"
  | .namespaceExport => "namespace_export"
  | .exportClause => "export_clause"
  | .exportSpecifier => "export_specifier"
  | .expressionStatement => "expression_statement"
  | .variableDeclaration => "variable_declaration"
  | .lexicalDeclaration => "lexical_declaration"
  | .variableDeclarator => "variable_declarator"
  | .functionDeclaration => "function_declaration"
  | .generatorFunctionDeclaration => "generator_function_declaration"
  | .classDeclaration => "class_declaration"
  | .statementBlock => "statement_block"
  | .ifStatement => "if_statement"
  | .elseClause => "else_clause"
  | .switchStatement => "switch_statement"
  | .switchBody => "switch_body"
  | .switchCase => "switch_case"
  | .switchDefault => "switch_default"
  | .forStatement => "for_statement"
  | .forInStatement => "for_in_statement"
  | .whileStatement => "while_statement"
  | .doStatement => "do_statement"
  | .tryStatement => "try_statement"
  | .catchClause => "catch_clause"
  | .finallyClause => "finally_clause"
  | .withStatement => "with_statement"
  | .breakStatement => "break_statement"
  | .continueStatement => "continue_statement"
  | .debuggerStatement => "debugger_statement"
  | .returnStatement => "return_statement"
  | .throwStatement => "throw_statement"
  | .emptyStatement => "empty_statement"
  | .labeledStatement => "labeled_statement"
  | .parenthesizedExpression => "parenthesized_expression"
  | .sequenceExpression => "sequence_expression"
  | .assignmentExpression => "assignment_expression"
  | .augmentedAssignmentExpression => "augmented_assignment_expression"
  | .awaitExpression => "await_expression"
  | .unaryExpression => "unary_expression"
  | .binaryExpression => "binary_expression"
  | .ternaryExpression => "ternary_expression"
  | .updateExpression => "update_expression"
  | .newExpression => "new_expression"
  | .yieldExpression => "yield_expression"
  | .subscriptExpression => "subscript_expression"
  | .memberExpression => "member_expression"
  | .callExpression => "call_expression"
  | .metaProperty => "meta_property"
  | .optionalChain => "optional_chain"
  | .arguments => "arguments"
  | .spreadElement => "spread_element"
  | .identifier => "identifier"
  | .propertyIdentifier => "property_identifier"
  | .privatePropertyIdentifier => "private_property_identifier"
  | .shorthandPropertyIdentifier => "shorthand_property_identifier"
  | .shorthandPropertyIdentifierPattern => "shorthand_property_identifier_pattern"
  | .statementIdentifier => "statement_identifier"
  | .thisWord => "this"
  | .superWord => "super"
  | .number => "number"
  | .string => "string"
  | .stringFragment => "string_fragment"
  | .escapeSequence => "escape_sequence"
  | .htmlCharacterReference => "html_character_reference"
  | .templateString => "template_string"
  | .templateSubstitution => "template_substitution"
  | .regex => "regex"
  | .regexPattern => "regex_pattern"
  | .regexFlags => "regex_flags"
  | .trueWord => "true"
  | .falseWord => "false"
  | .nullWord => "null"
  | .undefinedWord => "undefined"
  | .importWord => "import"
  | .object => "object"
  | .objectPattern => "object_pattern"
  | .pair => "pair"
  | .pairPattern => "pair_pattern"
  | .objectAssignmentPattern => "object_assignment_pattern"
  | .assignmentPattern => "assignment_pattern"
  | .restPattern => "rest_pattern"
  | .array => "array"
  | .arrayPattern => "array_pattern"
  | .computedPropertyName => "computed_property_name"
  | .methodDefinition => "method_definition"
  | .functionExpression => "function_expression"
  | .generatorFunction => "generator_function"
  | .arrowFunction => "arrow_function"
  | .formalParameters => "formal_parameters"
  | .classExpression => "class"
  | .classHeritage => "class_heritage"
  | .classBody => "class_body"
  | .classStaticBlock => "class_static_block"
  | .fieldDefinition => "field_definition"
  | .decorator => "decorator"
  | .jsxElement => "jsx_element"
  | .jsxOpeningElement => "jsx_opening_element"
  | .jsxClosingElement => "jsx_closing_element"
  | .jsxSelfClosingElement => "jsx_self_closing_element"
  | .jsxAttribute => "jsx_attribute"
  | .jsxExpression => "jsx_expression"
  | .jsxNamespaceName => "jsx_namespace_name"
  | .jsxText => "jsx_text"

/-- Named kinds are the ones counted as children; punctuation, keywords and white space are not. -/
def isNamed : Kind → Bool
  | .mark | .blank => false
  | _ => true

/-- What may stand between any two tokens. -/
def isTrivia : Kind → Bool
  | .blank | .comment | .htmlComment => true
  | _ => false

end Kind

end ImportMeter.Script
