/-!
# Kinds

Every token and every node of a syntax tree has a kind.  Keyword kinds are never produced by the
lexer: a word is read as `name`, and a rule that takes it as a keyword says so.
-/

set_option autoImplicit false

namespace ActionScript

/-- Kinds of tokens and nodes.  Their order is the order in which sets of kinds are listed. -/
inductive Kind where
  -- trivia
  | whitespace | newline | lineComment | blockComment
  -- punctuation and operators
  | lParen | rParen | lBrack | rBrack | lCurly | rCurly | semicolon | comma | dot | dot2 | dot3
  | dotLt | colon | colon2 | question | tilde | eq | eq2 | eq3 | bang | neq | neq2 | lt | lteq
  | shl | shlEq | gt | gteq | shr | shrEq | ushr | ushrEq | plus | plus2 | plusEq | minus | minus2
  | minusEq | star | starEq | slash | slashEq | percent | percentEq | amp | amp2 | ampEq | amp2Eq
  | pipe | pipe2 | pipeEq | pipe2Eq | caret | caretEq | ltSlash | slashGt
  -- words, literals and markup text
  | name | number | string | regex | xmlText | xmlComment | xmlCdata | xmlPi
  -- keywords
  | asKw | breakKw | caseKw | catchKw | classKw | constKw | continueKw | defaultKw | deleteKw
  | doKw | dynamicKw | eachKw | elseKw | extendsKw | falseKw | finalKw | finallyKw | forKw
  | functionKw | getKw | ifKw | implementsKw | importKw | inKw | includeKw | instanceofKw
  | interfaceKw | internalKw | isKw | namespaceKw | newKw | nullKw | overrideKw | packageKw
  | privateKw | protectedKw | publicKw | returnKw | setKw | staticKw | superKw | switchKw | thisKw
  | throwKw | trueKw | tryKw | typeofKw | undefinedKw | useKw | varKw | voidKw | whileKw | withKw
  -- tokens without a reading, end of file
  | unknown | eof
  -- the root and error nodes
  | sourceFile | error
  -- declarations, directives and types
  | packageDecl | importStmt | includeDirective | useNamespaceDirective | namespaceDecl
  | classDecl | interfaceDecl | functionDecl | variableDecl | constantDecl | qualifiedName
  | metadata | metadataArgList | metadataArg | classAttribute | propertyAttribute
  | extendsClause | implementsClause | classBody | interfaceBody | paramList | param | restParam
  | typeAscription | typeName | genericType | typeArgList | anyType | voidType
  | variableDeclarator
  -- statements
  | block | emptyStmt | exprStmt | ifStmt | elseClause | switchStmt | switchBody | caseClause
  | defaultClause | forStmt | forInStmt | forEachInStmt | whileStmt | doStmt | withStmt | tryStmt
  | catchClause | finallyClause | breakStmt | continueStmt | returnStmt | throwStmt | labeledStmt
  -- expressions
  | assignExpr | augmentedAssignExpr | unaryExpr | binaryExpr | ternaryExpr | updateExpr
  | castExpr | newExpr | sequenceExpr | subscriptExpr | memberExpr | descendantExpr
  | namespaceAccessExpr | filterExpr | parenExpr | callExpr | argList | ident | wildcard
  | thisExpr | superExpr | numberLiteral | stringLiteral | booleanLiteral | nullLiteral
  | undefinedLiteral | regexLiteral | objectLiteral | pair | arrayLiteral | vectorLiteral
  | functionExpr
  -- markup
  | xmlElement | xmlStartTag | xmlEndTag | xmlAttribute | xmlExpr
  -- the kind of nothing
  | tombstone
  deriving DecidableEq, Repr, Inhabited

namespace Kind

/-- Every kind, in order. -/
def all : List Kind :=
  [.whitespace, .newline, .lineComment, .blockComment, .lParen, .rParen, .lBrack, .rBrack,
   .lCurly, .rCurly, .semicolon, .comma, .dot, .dot2, .dot3, .dotLt, .colon, .colon2, .question,
   .tilde, .eq, .eq2, .eq3, .bang, .neq, .neq2, .lt, .lteq, .shl, .shlEq, .gt, .gteq, .shr,
   .shrEq, .ushr, .ushrEq, .plus, .plus2, .plusEq, .minus, .minus2, .minusEq, .star, .starEq,
   .slash, .slashEq, .percent, .percentEq, .amp, .amp2, .ampEq, .amp2Eq, .pipe, .pipe2, .pipeEq,
   .pipe2Eq, .caret, .caretEq, .ltSlash, .slashGt, .name, .number, .string, .regex, .xmlText,
   .xmlComment, .xmlCdata, .xmlPi, .asKw, .breakKw, .caseKw, .catchKw, .classKw, .constKw,
   .continueKw, .defaultKw, .deleteKw, .doKw, .dynamicKw, .eachKw, .elseKw, .extendsKw, .falseKw,
   .finalKw, .finallyKw, .forKw, .functionKw, .getKw, .ifKw, .implementsKw, .importKw, .inKw,
   .includeKw, .instanceofKw, .interfaceKw, .internalKw, .isKw, .namespaceKw, .newKw, .nullKw,
   .overrideKw, .packageKw, .privateKw, .protectedKw, .publicKw, .returnKw, .setKw, .staticKw,
   .superKw, .switchKw, .thisKw, .throwKw, .trueKw, .tryKw, .typeofKw, .undefinedKw, .useKw,
   .varKw, .voidKw, .whileKw, .withKw, .unknown, .eof, .sourceFile, .error, .packageDecl,
   .importStmt, .includeDirective, .useNamespaceDirective, .namespaceDecl, .classDecl,
   .interfaceDecl, .functionDecl, .variableDecl, .constantDecl, .qualifiedName, .metadata,
   .metadataArgList, .metadataArg, .classAttribute, .propertyAttribute, .extendsClause,
   .implementsClause, .classBody, .interfaceBody, .paramList, .param, .restParam,
   .typeAscription, .typeName, .genericType, .typeArgList, .anyType, .voidType,
   .variableDeclarator, .block, .emptyStmt, .exprStmt, .ifStmt, .elseClause, .switchStmt,
   .switchBody, .caseClause, .defaultClause, .forStmt, .forInStmt, .forEachInStmt, .whileStmt,
   .doStmt, .withStmt, .tryStmt, .catchClause, .finallyClause, .breakStmt, .continueStmt,
   .returnStmt, .throwStmt, .labeledStmt, .assignExpr, .augmentedAssignExpr, .unaryExpr,
   .binaryExpr, .ternaryExpr, .updateExpr, .castExpr, .newExpr, .sequenceExpr, .subscriptExpr,
   .memberExpr, .descendantExpr, .namespaceAccessExpr, .filterExpr, .parenExpr, .callExpr,
   .argList, .ident, .wildcard, .thisExpr, .superExpr, .numberLiteral, .stringLiteral,
   .booleanLiteral, .nullLiteral, .undefinedLiteral, .regexLiteral, .objectLiteral, .pair,
   .arrayLiteral, .vectorLiteral, .functionExpr, .xmlElement, .xmlStartTag, .xmlEndTag,
   .xmlAttribute, .xmlExpr, .tombstone]

/-- The position of `k` in the order of kinds, counted from zero. -/
def ordinal (k : Kind) : Nat := k.ctorIdx

theorem ordinal_lt (k : Kind) : k.ordinal < 216 := by
  cases k <;> exact Nat.le_of_ble_eq_true rfl

theorem mem_all (k : Kind) : k ∈ all := by
  have hall : (List.range 216).map ofNat = all := by decide +kernel
  rw [← hall, ← k.ofNat_ctorIdx]
  exact List.mem_map_of_mem (List.mem_range.2 k.ordinal_lt)

/-- What is said of all kinds can be checked kind by kind. -/
instance (priority := low) {P : Kind → Prop} [DecidablePred P] : Decidable (∀ k, P k) :=
  decidable_of_iff (∀ k ∈ all, P k) ⟨fun h k => h k k.mem_all, fun h k _ => h k⟩

/-- Upper-case name, as dumps print it. -/
def label : Kind → String
  | .whitespace => "WHITESPACE"
  | .newline => "NEWLINE"
  | .lineComment => "LINE_COMMENT"
  | .blockComment => "BLOCK_COMMENT"
  | .lParen => "L_PAREN"
  | .rParen => "R_PAREN"
  | .lBrack => "L_BRACK"
  | .rBrack => "R_BRACK"
  | .lCurly => "L_CURLY"
  | .rCurly => "R_CURLY"
  | .semicolon => "SEMICOLON"
  | .comma => "COMMA"
  | .dot => "DOT"
  | .dot2 => "DOT2"
  | .dot3 => "DOT3"
  | .dotLt => "DOT_LT"
  | .colon => "COLON"
  | .colon2 => "COLON2"
  | .question => "QUESTION"
  | .tilde => "TILDE"
  | .eq => "EQ"
  | .eq2 => "EQ2"
  | .eq3 => "EQ3"
  | .bang => "BANG"
  | .neq => "NEQ"
  | .neq2 => "NEQ2"
  | .lt => "LT"
  | .lteq => "LTEQ"
  | .shl => "SHL"
  | .shlEq => "SHL_EQ"
  | .gt => "GT"
  | .gteq => "GTEQ"
  | .shr => "SHR"
  | .shrEq => "SHR_EQ"
  | .ushr => "USHR"
  | .ushrEq => "USHR_EQ"
  | .plus => "PLUS"
  | .plus2 => "PLUS2"
  | .plusEq => "PLUS_EQ"
  | .minus => "MINUS"
  | .minus2 => "MINUS2"
  | .minusEq => "MINUS_EQ"
  | .star => "STAR"
  | .starEq => "STAR_EQ"
  | .slash => "SLASH"
  | .slashEq => "SLASH_EQ"
  | .percent => "PERCENT"
  | .percentEq => "PERCENT_EQ"
  | .amp => "AMP"
  | .amp2 => "AMP2"
  | .ampEq => "AMP_EQ"
  | .amp2Eq => "AMP2_EQ"
  | .pipe => "PIPE"
  | .pipe2 => "PIPE2"
  | .pipeEq => "PIPE_EQ"
  | .pipe2Eq => "PIPE2_EQ"
  | .caret => "CARET"
  | .caretEq => "CARET_EQ"
  | .ltSlash => "LT_SLASH"
  | .slashGt => "SLASH_GT"
  | .name => "NAME"
  | .number => "NUMBER"
  | .string => "STRING"
  | .regex => "REGEX"
  | .xmlText => "XML_TEXT"
  | .xmlComment => "XML_COMMENT"
  | .xmlCdata => "XML_CDATA"
  | .xmlPi => "XML_PI"
  | .asKw => "AS_KW"
  | .breakKw => "BREAK_KW"
  | .caseKw => "CASE_KW"
  | .catchKw => "CATCH_KW"
  | .classKw => "CLASS_KW"
  | .constKw => "CONST_KW"
  | .continueKw => "CONTINUE_KW"
  | .defaultKw => "DEFAULT_KW"
  | .deleteKw => "DELETE_KW"
  | .doKw => "DO_KW"
  | .dynamicKw => "DYNAMIC_KW"
  | .eachKw => "EACH_KW"
  | .elseKw => "ELSE_KW"
  | .extendsKw => "EXTENDS_KW"
  | .falseKw => "FALSE_KW"
  | .finalKw => "FINAL_KW"
  | .finallyKw => "FINALLY_KW"
  | .forKw => "FOR_KW"
  | .functionKw => "FUNCTION_KW"
  | .getKw => "GET_KW"
  | .ifKw => "IF_KW"
  | .implementsKw => "IMPLEMENTS_KW"
  | .importKw => "IMPORT_KW"
  | .inKw => "IN_KW"
  | .includeKw => "INCLUDE_KW"
  | .instanceofKw => "INSTANCEOF_KW"
  | .interfaceKw => "INTERFACE_KW"
  | .internalKw => "INTERNAL_KW"
  | .isKw => "IS_KW"
  | .namespaceKw => "NAMESPACE_KW"
  | .newKw => "NEW_KW"
  | .nullKw => "NULL_KW"
  | .overrideKw => "OVERRIDE_KW"
  | .packageKw => "PACKAGE_KW"
  | .privateKw => "PRIVATE_KW"
  | .protectedKw => "PROTECTED_KW"
  | .publicKw => "PUBLIC_KW"
  | .returnKw => "RETURN_KW"
  | .setKw => "SET_KW"
  | .staticKw => "STATIC_KW"
  | .superKw => "SUPER_KW"
  | .switchKw => "SWITCH_KW"
  | .thisKw => "THIS_KW"
  | .throwKw => "THROW_KW"
  | .trueKw => "TRUE_KW"
  | .tryKw => "TRY_KW"
  | .typeofKw => "TYPEOF_KW"
  | .undefinedKw => "UNDEFINED_KW"
  | .useKw => "USE_KW"
  | .varKw => "VAR_KW"
  | .voidKw => "VOID_KW"
  | .whileKw => "WHILE_KW"
  | .withKw => "WITH_KW"
  | .unknown => "UNKNOWN"
  | .eof => "EOF"
  | .sourceFile => "SOURCE_FILE"
  | .error => "ERROR"
  | .packageDecl => "PACKAGE_DECL"
  | .importStmt => "IMPORT_STMT"
  | .includeDirective => "INCLUDE_DIRECTIVE"
  | .useNamespaceDirective => "USE_NAMESPACE_DIRECTIVE"
  | .namespaceDecl => "NAMESPACE_DECL"
  | .classDecl => "CLASS_DECL"
  | .interfaceDecl => "INTERFACE_DECL"
  | .functionDecl => "FUNCTION_DECL"
  | .variableDecl => "VARIABLE_DECL"
  | .constantDecl => "CONSTANT_DECL"
  | .qualifiedName => "QUALIFIED_NAME"
  | .metadata => "ANNOTATION"
  | .metadataArgList => "ANNOTATION_ARG_LIST"
  | .metadataArg => "ANNOTATION_ARG"
  | .classAttribute => "CLASS_ATTRIBUTE"
  | .propertyAttribute => "PROPERTY_ATTRIBUTE"
  | .extendsClause => "EXTENDS_CLAUSE"
  | .implementsClause => "IMPLEMENTS_CLAUSE"
  | .classBody => "CLASS_BODY"
  | .interfaceBody => "INTERFACE_BODY"
  | .paramList => "PARAM_LIST"
  | .param => "PARAM"
  | .restParam => "REST_PARAM"
  | .typeAscription => "TYPE_ANNOTATION"
  | .typeName => "TYPE_NAME"
  | .genericType => "GENERIC_TYPE"
  | .typeArgList => "TYPE_ARG_LIST"
  | .anyType => "ANY_TYPE"
  | .voidType => "VOID_TYPE"
  | .variableDeclarator => "VARIABLE_DECLARATOR"
  | .block => "BLOCK"
  | .emptyStmt => "EMPTY_STMT"
  | .exprStmt => "EXPR_STMT"
  | .ifStmt => "IF_STMT"
  | .elseClause => "ELSE_CLAUSE"
  | .switchStmt => "SWITCH_STMT"
  | .switchBody => "SWITCH_BODY"
  | .caseClause => "CASE_CLAUSE"
  | .defaultClause => "DEFAULT_CLAUSE"
  | .forStmt => "FOR_STMT"
  | .forInStmt => "FOR_IN_STMT"
  | .forEachInStmt => "FOR_EACH_IN_STMT"
  | .whileStmt => "WHILE_STMT"
  | .doStmt => "DO_STMT"
  | .withStmt => "WITH_STMT"
  | .tryStmt => "TRY_STMT"
  | .catchClause => "CATCH_CLAUSE"
  | .finallyClause => "FINALLY_CLAUSE"
  | .breakStmt => "BREAK_STMT"
  | .continueStmt => "CONTINUE_STMT"
  | .returnStmt => "RETURN_STMT"
  | .throwStmt => "THROW_STMT"
  | .labeledStmt => "LABELED_STMT"
  | .assignExpr => "ASSIGN_EXPR"
  | .augmentedAssignExpr => "AUGMENTED_ASSIGN_EXPR"
  | .unaryExpr => "UNARY_EXPR"
  | .binaryExpr => "BINARY_EXPR"
  | .ternaryExpr => "TERNARY_EXPR"
  | .updateExpr => "UPDATE_EXPR"
  | .castExpr => "CAST_EXPR"
  | .newExpr => "NEW_EXPR"
  | .sequenceExpr => "SEQUENCE_EXPR"
  | .subscriptExpr => "SUBSCRIPT_EXPR"
  | .memberExpr => "MEMBER_EXPR"
  | .descendantExpr => "DESCENDANT_EXPR"
  | .namespaceAccessExpr => "NAMESPACE_ACCESS_EXPR"
  | .filterExpr => "FILTER_EXPR"
  | .parenExpr => "PAREN_EXPR"
  | .callExpr => "CALL_EXPR"
  | .argList => "ARG_LIST"
  | .ident => "IDENT"
  | .wildcard => "WILDCARD"
  | .thisExpr => "THIS_EXPR"
  | .superExpr => "SUPER_EXPR"
  | .numberLiteral => "NUMBER_LITERAL"
  | .stringLiteral => "STRING_LITERAL"
  | .booleanLiteral => "BOOLEAN_LITERAL"
  | .nullLiteral => "NULL_LITERAL"
  | .undefinedLiteral => "UNDEFINED_LITERAL"
  | .regexLiteral => "REGEX_LITERAL"
  | .objectLiteral => "OBJECT_LITERAL"
  | .pair => "PAIR"
  | .arrayLiteral => "ARRAY_LITERAL"
  | .vectorLiteral => "VECTOR_LITERAL"
  | .functionExpr => "FUNCTION_EXPR"
  | .xmlElement => "XML_ELEMENT"
  | .xmlStartTag => "XML_START_TAG"
  | .xmlEndTag => "XML_END_TAG"
  | .xmlAttribute => "XML_ATTRIBUTE"
  | .xmlExpr => "XML_EXPR"
  | .tombstone => "TOMBSTONE"

/-- Lower-case name, as s-expressions print it. -/
def tag (k : Kind) : String := String.ofList (k.label.toList.map Char.toLower)

/-- Reads an upper-case name. -/
def ofLabel? (s : String) : Option Kind := all.find? fun k => k.label == s

/-- Blanks, line breaks and comments. -/
def isTrivia : Kind → Bool
  | .whitespace | .newline | .lineComment | .blockComment => true
  | _ => false

/-- Comments of either sort. -/
def isComment : Kind → Bool
  | .lineComment | .blockComment => true
  | _ => false

/-- Words with a reading of their own. -/
def isKeyword (k : Kind) : Bool :=
  Kind.asKw.ordinal ≤ k.ordinal && k.ordinal ≤ Kind.withKw.ordinal

/-- Kinds that only inner nodes have. -/
def isNode (k : Kind) : Bool :=
  Kind.sourceFile.ordinal ≤ k.ordinal && k.ordinal < Kind.tombstone.ordinal

end Kind

end ActionScript
